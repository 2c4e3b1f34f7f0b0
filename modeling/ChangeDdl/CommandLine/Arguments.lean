/-!
The arguments of the command line: `--config` or `-c` with a path, any number of times, and at
most one input file, in any order. A lone `-` stands for the standard input while no file is named.
-/

set_option autoImplicit false
set_option relaxedAutoImplicit false

namespace ChangeDdl.CommandLine

/-- The paths of the configuration and of the input. Without an input path the standard input is
read. -/
structure Arguments where
  config : Option String
  input : Option String
deriving DecidableEq

inductive UsageError where
  | missingConfigPath
  | unknownOption (argument : String)
  | secondInput
deriving DecidableEq

namespace UsageError

def message : UsageError → String
  | missingConfigPath => "--config needs a path"
  | unknownOption argument => "unknown option " ++ argument
  | secondInput => "only one input file is accepted"

end UsageError

namespace Arguments

def isConfigFlag (argument : String) : Bool :=
  argument = "--config" || argument = "-c"

def looksLikeOption (argument : String) : Bool :=
  argument.toList.head? = some '-'

/-- Reads the arguments that follow those read before. The last configuration counts. -/
def parseFrom (before : Arguments) : List String → Except UsageError Arguments
  | [] => .ok before
  | argument :: rest =>
    if isConfigFlag argument then
      match rest with
      | [] => .error .missingConfigPath
      | path :: rest => parseFrom { before with config := some path } rest
    else if argument = "-" ∧ before.input = none then parseFrom before rest
    else if looksLikeOption argument then .error (.unknownOption argument)
    else if before.input.isSome then .error .secondInput
    else parseFrom { before with input := some argument } rest

def parse (arguments : List String) : Except UsageError Arguments :=
  parseFrom ⟨none, none⟩ arguments

end Arguments

end ChangeDdl.CommandLine
