import SignedBoot.Command.Program

/-! # The command line program -/

namespace SignedBoot

def systemFiles : FileAccess IO where
  read path := do
    try
      return some (← IO.FS.readBinFile path).toList
    catch _ => return none
  write path contents := do
    try
      IO.FS.writeBinFile path ⟨contents.toArray⟩
      return true
    catch _ => return false

end SignedBoot

/-- Runs the command line with a fresh salt, prints its output, and says on the error stream what
went wrong. -/
def main (words : List String) : IO UInt32 := do
  let salt ← IO.getRandomBytes 32
  let done ← SignedBoot.Program.run SignedBoot.systemFiles
    (SignedBoot.Block.ofPadded 32 salt.toList) words
  IO.print done.output
  if let some note := done.note then
    IO.eprintln note
  return done.exitCode.toUInt32
