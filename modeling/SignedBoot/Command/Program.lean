import SignedBoot.Command.Create
import SignedBoot.Command.Line
import SignedBoot.Command.Verify

/-!
# The program

Runs the command of a command line and says with what text and exit code the program ends.
-/

namespace SignedBoot

structure ProgramEnd where
  exitCode : UInt8
  output : String
  /-- What is said on the side: how to use the program, or why a command failed. -/
  note : Option String

namespace Program

variable {m : Type → Type} [Monad m]

def runCommand (files : FileAccess m) (salt : Block 32) (command : CommandName)
    (args : Arguments) : ExceptT CommandFault m String :=
  match command with
  | .create => Command.create files salt args
  | .inspect => Command.inspect files args
  | .verify => Command.verify files args

def run (files : FileAccess m) (salt : Block 32) (words : List String) : m ProgramEnd :=
  match Line.parse words with
  | .error stop => pure ⟨stop.exitCode, "", some Line.usage⟩
  | .ok (command, args) => do
    match ← (runCommand files salt command args).run with
    | .ok output => return ⟨0, output, none⟩
    | .error fault => return ⟨1, "", some fault.message⟩

end Program

end SignedBoot
