/-!
What the command line asks of its surroundings: the texts of files and of the standard input.
-/

set_option autoImplicit false
set_option relaxedAutoImplicit false

namespace ChangeDdl.CommandLine

/-- Why a file or the standard input has no text. -/
inductive ReadFault where
  | absent
  | belowFile
  | directory
  | notText
  | other (description : String)
deriving DecidableEq

namespace ReadFault

def message : ReadFault → String
  | absent => "No such file or directory (os error 2)"
  | belowFile => "Not a directory (os error 20)"
  | directory => "Is a directory (os error 21)"
  | notText => "stream did not contain valid UTF-8"
  | other description => description

end ReadFault

structure Host (m : Type → Type) where
  readFile : String → m (Except ReadFault String)
  readInput : m (Except ReadFault String)

/-- The text that bytes hold in UTF-8. -/
def textOfBytes (bytes : ByteArray) : Except ReadFault String :=
  match String.fromUTF8? bytes with
  | some text => .ok text
  | none => .error .notText

end ChangeDdl.CommandLine
