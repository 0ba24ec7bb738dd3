import SignedBoot.BoundedList
import SignedBoot.Bytes.Basic
import SignedBoot.Bytes.Numeral
import SignedBoot.Bytes.Word
import SignedBoot.Command.Create
import SignedBoot.Command.Fault
import SignedBoot.Command.Files
import SignedBoot.Command.Inspect
import SignedBoot.Command.Line
import SignedBoot.Command.Load
import SignedBoot.Command.Path
import SignedBoot.Command.Program
import SignedBoot.Command.Settings
import SignedBoot.Command.Verify
import SignedBoot.Container.Carrier
import SignedBoot.Container.Descriptor
import SignedBoot.Container.Header
import SignedBoot.Container.Image
import SignedBoot.Container.Key
import SignedBoot.Container.Region
import SignedBoot.Container.SignedMessage
import SignedBoot.Container.Tag
import SignedBoot.Container.Trailer
import SignedBoot.Encoding.Pkcs1
import SignedBoot.Encoding.Pss
import SignedBoot.Encoding.Scheme
import SignedBoot.Encoding.Standard
import SignedBoot.Encoding.Template
import SignedBoot.Fault
import SignedBoot.Generation.Recipe
import SignedBoot.Generation.Signer
import SignedBoot.Hash.Sha256
import SignedBoot.Keys.Der
import SignedBoot.Keys.Document
import SignedBoot.Keys.Pem
import SignedBoot.Main
import SignedBoot.Rsa.Modular
import SignedBoot.Rsa.PrivateKey
import SignedBoot.Rsa.PublicKey
import SignedBoot.Storage
import SignedBoot.Text.Base64
import SignedBoot.Text.Hex
import SignedBoot.Text.Quoted
import SignedBoot.Toml.Document
import SignedBoot.Toml.Scalar
import SignedBoot.Toml.Value
import SignedBoot.Verification.BootVerifier
import SignedBoot.Verification.DigestStage
import SignedBoot.Verification.Policy
import SignedBoot.Verification.Run
import SignedBoot.Verification.SignatureStage
import SignedBoot.Verification.Trace
import SignedBoot.Proofs.Bytes.Slices
import SignedBoot.Proofs.Container.Coverage
import SignedBoot.Proofs.Container.Format
import SignedBoot.Proofs.Container.Framing
import SignedBoot.Proofs.Container.ImageOctets
import SignedBoot.Proofs.Container.SignatureBodies
import SignedBoot.Proofs.Container.SignaturePlace
import SignedBoot.Proofs.Container.SignedMessage
import SignedBoot.Proofs.Container.TagOctets
import SignedBoot.Proofs.Container.Trailer
import SignedBoot.Proofs.Container.TrailerScans
import SignedBoot.Proofs.Container.Unambiguity
import SignedBoot.Proofs.Generation.Layout
import SignedBoot.Proofs.Generation.RoundTrip
import SignedBoot.Proofs.Generation.SigningKeys
import SignedBoot.Proofs.Outcome
import SignedBoot.Proofs.Powers
import SignedBoot.Proofs.Rsa.KeySize
import SignedBoot.Proofs.Rsa.Signing
import SignedBoot.Proofs.Verification.Acceptance
import SignedBoot.Proofs.Verification.LoadEntries
import SignedBoot.Proofs.Verification.Operations
import SignedBoot.Proofs.Verification.Verdict
import SignedBoot.Proofs.Container.FormatFaults
import SignedBoot.Proofs.Verification.FromStorage
import SignedBoot.Proofs.Verification.Course
import SignedBoot.Proofs.Verification.Rejection
import SignedBoot.Proofs.Encoding.Pss
import SignedBoot.Proofs.Encoding.PssOctets
import SignedBoot.Proofs.Verification.Completeness
import SignedBoot.Proofs.Loading
import SignedBoot.Proofs.Calls
import SignedBoot.Proofs.Command.Files
import SignedBoot.Proofs.Command.Runs
import SignedBoot.Proofs.Command.SignThenVerify
import SignedBoot.Proofs.Keys.Base64
import SignedBoot.Proofs.Keys.Der
import SignedBoot.Proofs.Keys.Documents
import SignedBoot.Proofs.Machine.BootVerifier
import SignedBoot.Proofs.Machine.SignatureCalls
import SignedBoot.Proofs.Verification.DigestCalls
import SignedBoot.Proofs.Verification.DigestOnly
import SignedBoot.Proofs.Command.Verdicts
import SignedBoot.Proofs.Rsa.CarriedKeys
import SignedBoot.Proofs.Verification.DigestCopies
import SignedBoot.Proofs.Verification.LoadedHeader
import SignedBoot.Proofs.Container.TagWalk
import SignedBoot.Proofs.Container.DescriptorForm
import SignedBoot.Proofs.Machine.ModulusDigits
import SignedBoot.Proofs.Machine.Pushes
import SignedBoot.Proofs.Machine.TagCalls
