import SignedBoot.Command.Load

/-!
# Command lines

A command line names a command and gives a value for each of its options. The option for the log
level may stand before and behind the name of the command.
-/

namespace SignedBoot

inductive CommandName
  | create
  | inspect
  | verify
deriving DecidableEq, Repr

namespace CommandName

def word : CommandName → String
  | .create => "create"
  | .inspect => "inspect"
  | .verify => "verify"

def ofWord? (word : String) : Option CommandName :=
  [create, inspect, verify].find? fun c => c.word = word

def options : CommandName → List String
  | .create => ["config", "payload", "out"]
  | .inspect => ["image"]
  | .verify => ["config", "image"]

end CommandName

/-- Why a command line runs no command. -/
inductive LineStop
  | help
  /-- The line does not have the form of a command line. -/
  | misuse
  /-- The line has options but no command. -/
  | noCommand
deriving DecidableEq

/-- The exit code of a line that runs no command. -/
def LineStop.exitCode : LineStop → UInt8
  | .help => 0
  | .misuse => 2
  | .noCommand => 101

namespace Line

def helpWord : String := "help"

def logLevel : String := "log-level"

def logLevels : List String := ["off", "error", "warn", "info", "debug", "trace"]

def accepts (option value : String) : Bool :=
  if option = logLevel then logLevels.contains value else value ≠ ""

/-- Whether a word may stand for a value. Words that start with a dash are options, but for the
dash alone. -/
def isValue (word : String) : Bool := ¬ word.startsWith "-" ∨ word = "-"

/-- The name in an option's word, and the value behind an equals sign if there is one. -/
def splitOption (word : String) : String × Option String :=
  let cs := word.toList.drop 2
  let name := String.ofList (cs.takeWhile (· ≠ '='))
  match cs.dropWhile (· ≠ '=') with
  | _ :: value => (name, some (String.ofList value))
  | [] => (name, none)

def add (known : List String) (given : Arguments) (name value : String) :
    Except LineStop Arguments :=
  if known.contains name ∧ (given.lookup name).isNone ∧ accepts name value then
    .ok (given ++ [(name, value)])
  else .error .misuse

/-- Reads options up to the first word that is one of the stopping words, and returns that word
with what follows it. -/
def scan (known stops : List String) :
    Arguments → List String → Except LineStop (Arguments × Option (String × List String))
  | given, [] => .ok (given, none)
  | given, word :: rest =>
    if stops.contains word then .ok (given, some (word, rest))
    else if word = "--" then if rest = [] then .ok (given, none) else .error .misuse
    else if word.startsWith "--" then
      match splitOption word with
      | ("help", none) => .error .help
      | (name, some value) => do scan known stops (← add known given name value) rest
      | (name, none) =>
        match rest with
        | [] => .error .misuse
        | value :: rest =>
          if isValue value then do scan known stops (← add known given name value) rest
          else .error .misuse
    else if word.startsWith "-h" then .error .help
    else .error .misuse

def usage : String :=
  "\n".intercalate <| "Commands and their options:" ::
    [CommandName.create, .inspect, .verify].map fun c =>
      "  " ++ c.word ++ String.join (c.options.map fun o => " --" ++ o ++ " <FILE>")

def helpStop : List String → LineStop
  | [] => .help
  | [word] => if word = helpWord ∨ (CommandName.ofWord? word).isSome then .help else .misuse
  | _ => .misuse

def parse (words : List String) : Except LineStop (CommandName × Arguments) := do
  let commands := [CommandName.create, .inspect, .verify].map CommandName.word
  match ← scan [logLevel] (helpWord :: commands) [] words with
  | ([], none) => throw .misuse
  | (_, none) => throw .noCommand
  | (_, some (word, rest)) =>
    match CommandName.ofWord? word with
    | none => throw (helpStop rest)
    | some command =>
      let (args, _) ← scan (logLevel :: command.options) [] [] rest
      if command.options.all fun name => (args.lookup name).isSome then return (command, args)
      else throw .misuse

end Line

end SignedBoot
