import ChangeDdl.CommandLine.Arguments
import ChangeDdl.CommandLine.Host
import ChangeDdl.Config
import ChangeDdl.Event.Encoding

/-!
A run of the command line: arguments, configuration, input, event and statements, in this order,
up to the first that fails. Either the statements are printed or the failure is reported, never
both.
-/

set_option autoImplicit false
set_option relaxedAutoImplicit false

namespace ChangeDdl.CommandLine

inductive Failure where
  | usage (error : UsageError)
  | config (fault : ReadFault)
  | input (fault : ReadFault)
  | ddl (error : Error)
deriving DecidableEq

namespace Failure

def message : Failure → String
  | usage error => error.message
  | config fault => fault.message
  | input fault => "failed to read input: " ++ fault.message
  | ddl error => error.message

end Failure

variable {m : Type → Type} [Monad m]

/-- A stage that may fail in a way of its own. -/
def stage {ε α : Type} (failure : ε → Failure) (action : m (Except ε α)) : ExceptT Failure m α :=
  ExceptT.mk ((Except.mapError failure ·) <$> action)

/-- The synthesizer of a configuration file, or the standard one. -/
def synthesizer (host : Host m) (config : Option String) : ExceptT Failure m Synthesizer := do
  match config with
  | none => pure .standard
  | some path =>
    let text ← stage .config (host.readFile path)
    let config ← stage .ddl (pure (Config.decode text))
    pure config.synthesizer

/-- The text of the input file, or of the standard input. -/
def inputText (host : Host m) (input : Option String) : ExceptT Failure m String :=
  stage .input <|
    match input with
    | none => host.readInput
    | some path => host.readFile path

/-- The statements for the input. -/
def statements (host : Host m) (arguments : List String) : ExceptT Failure m String := do
  let arguments ← stage .usage (pure (Arguments.parse arguments))
  let synthesizer ← synthesizer host arguments.config
  let text ← inputText host arguments.input
  let event ← stage .ddl (pure (ChangeEvent.decode text))
  stage .ddl (pure (synthesizer.synthesize event))

/-- What a run leaves behind. -/
structure Outcome where
  code : UInt32
  output : String
  errors : String
deriving DecidableEq

def Outcome.ofResult : Except Failure String → Outcome
  | .ok sql => ⟨0, sql ++ "\n", ""⟩
  | .error failure => ⟨1, "", "cdc-ddl: " ++ failure.message ++ "\n"⟩

def run (host : Host m) (arguments : List String) : m Outcome :=
  Outcome.ofResult <$> (statements host arguments).run

end ChangeDdl.CommandLine
