import ChangeDdl.CommandLine.Run

/-!
The command line in its real surroundings: files, the standard streams and the exit code.
-/

set_option autoImplicit false
set_option relaxedAutoImplicit false

namespace ChangeDdl.CommandLine

/-- The code of an error of the system and its description. -/
def systemError? : IO.Error → Option (UInt32 × String)
  | .otherError code details | .resourceBusy code details | .resourceVanished code details
  | .unsupportedOperation code details | .hardwareFault code details
  | .unsatisfiedConstraints code details | .illegalOperation code details
  | .protocolError code details | .timeExpired code details | .interrupted _ code details
  | .noFileOrDirectory _ code details | .alreadyExists _ code details
  | .invalidArgument _ code details | .permissionDenied _ code details
  | .resourceExhausted _ code details | .inappropriateType _ code details
  | .noSuchThing _ code details => some (code, details)
  | .unexpectedEof | .userError _ => none

/-- What the system says about the errors of opening and reading, by their numbers. -/
def descriptions : List (Nat × String) :=
  [(1, "Operation not permitted"), (4, "Interrupted system call"), (5, "Input/output error"),
   (6, "No such device or address"), (11, "Resource temporarily unavailable"),
   (12, "Cannot allocate memory"), (13, "Permission denied"), (16, "Device or resource busy"),
   (19, "No such device"), (22, "Invalid argument"), (23, "Too many open files in system"),
   (24, "Too many open files"), (26, "Text file busy"), (27, "File too large"),
   (36, "File name too long"), (40, "Too many levels of symbolic links"),
   (75, "Value too large for defined data type"), (116, "Stale file handle")]

/-- The number of an error. Some calls give it with a negative sign. -/
def errorNumber (code : UInt32) : Nat :=
  if code < 0x80000000 then code.toNat else (-code).toNat

def ReadFault.ofError (error : IO.Error) : ReadFault :=
  match systemError? error with
  | none => other (toString error)
  | some (code, details) =>
    match errorNumber code with
    | 2 => absent
    | 20 => belowFile
    | 21 => directory
    | number => other
        ((descriptions.lookup number).getD details ++ " (os error " ++ toString number ++ ")")

def attempt (read : IO ByteArray) : IO (Except ReadFault String) := do
  try
    return textOfBytes (← read)
  catch error => return .error (.ofError error)

/-- All bytes of a stream, appended to those read before. -/
partial def readToEnd (stream : IO.FS.Stream) (before : ByteArray) : IO ByteArray := do
  let bytes ← stream.read 65536
  if bytes.isEmpty then return before
  else readToEnd stream (before ++ bytes)

def system : Host IO where
  readFile path := attempt (IO.FS.readBinFile path)
  readInput := attempt do readToEnd (← IO.getStdin) ByteArray.empty

end ChangeDdl.CommandLine

def main (arguments : List String) : IO UInt32 := do
  let outcome ← ChangeDdl.CommandLine.run ChangeDdl.CommandLine.system arguments
  IO.print outcome.output
  IO.eprint outcome.errors
  return outcome.code
