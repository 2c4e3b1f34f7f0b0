import ChangeDdl.Json.Value
import ChangeDdl.Text.Shown

/-!
Why a JSON text does not decode, and where. A text is malformed, or it is well formed and does not
hold what was expected. While a text is read, a place is the number of bytes still unread there,
so that a reader needs to know nothing of what came before it; `Position.ofUnread` turns it into a
line and a column.
-/

set_option autoImplicit false
set_option relaxedAutoImplicit false

namespace ChangeDdl.Json

/-- What makes a text malformed. -/
inductive Malformed where
  | unfinishedValue
  | unfinishedText
  | unfinishedList
  | unfinishedObject
  | expectedValue
  | expectedWord
  | expectedColon
  | expectedCommaOrBracket
  | expectedCommaOrBrace
  | keyNotText
  | trailingComma
  | trailingCharacters
  | invalidNumber
  | numberOutOfRange
  | invalidEscape
  | loneSurrogate
  | unfinishedSurrogate
  | controlCharacter
  | nestedTooDeeply
deriving DecidableEq

/-- What a reader can ask for. -/
inductive Expected where
  | text
  | integer32
  | boolean
  | unit
  | sequence
  | map
  | record (name : String)
  | textOrMap
  | singleKeyMap
deriving DecidableEq

/-- How a well-formed value differs from what was expected. -/
inductive Mismatch where
  | wrongType (found : Found) (expected : Expected)
  | wrongValue (found : Found) (expected : Expected)
  | tooShort (present : Nat) (record : String) (fields : Nat)
  | tooLong (present : Nat)
  | missingField (name : String)
  | repeatedField (name : String)
  | unknownField (name : String) (known : List String)
  | unknownVariant (name : String) (known : List String)
deriving DecidableEq

inductive Cause where
  | malformed (what : Malformed)
  | mismatch (what : Mismatch)
deriving DecidableEq

namespace Malformed

def message : Malformed → String
  | unfinishedValue => "EOF while parsing a value"
  | unfinishedText => "EOF while parsing a string"
  | unfinishedList => "EOF while parsing a list"
  | unfinishedObject => "EOF while parsing an object"
  | expectedValue => "expected value"
  | expectedWord => "expected ident"
  | expectedColon => "expected `:`"
  | expectedCommaOrBracket => "expected `,` or `]`"
  | expectedCommaOrBrace => "expected `,` or `\x7d`"
  | keyNotText => "key must be a string"
  | trailingComma => "trailing comma"
  | trailingCharacters => "trailing characters"
  | invalidNumber => "invalid number"
  | numberOutOfRange => "number out of range"
  | invalidEscape => "invalid escape"
  | loneSurrogate => "lone leading surrogate in hex escape"
  | unfinishedSurrogate => "unexpected end of hex escape"
  | controlCharacter => "control character (\\u0000-\\u001F) found while parsing a string"
  | nestedTooDeeply => "recursion limit exceeded"

end Malformed

namespace Found

def phrase : Found → String
  | scalar .null => "null"
  | scalar (.boolean b) => "boolean `" ++ (if b then "true" else "false") ++ "`"
  | scalar (.number (.integer n)) => "integer `" ++ (Number.integer n).write ++ "`"
  | scalar (.number (.real x)) => "floating point `" ++ (Number.real x).write ++ "`"
  | scalar (.text s) => "string " ++ Text.shown s
  | sequence => "sequence"
  | map => "map"

end Found

namespace Expected

def phrase : Expected → String
  | text => "a string"
  | integer32 => "i32"
  | boolean => "a boolean"
  | unit => "unit"
  | sequence => "a sequence"
  | map => "a map"
  | record name => "struct " ++ name
  | textOrMap => "string or map"
  | singleKeyMap => "map with a single key"

end Expected

namespace Mismatch

def ticked (name : String) : String :=
  "`" ++ name ++ "`"

/-- Two names are joined by "or", more are listed. -/
def alternatives : List String → String
  | [first, second] => ticked first ++ " or " ++ ticked second
  | names =>
    (if names.length = 1 then "" else "one of ") ++ ", ".intercalate (names.map ticked)

def message : Mismatch → String
  | wrongType found expected =>
    "invalid type: " ++ found.phrase ++ ", expected " ++ expected.phrase
  | wrongValue found expected =>
    "invalid value: " ++ found.phrase ++ ", expected " ++ expected.phrase
  | tooShort present record fields =>
    "invalid length " ++ Decimal.natural present ++ ", expected " ++ (Expected.record record).phrase ++
      " with " ++ Decimal.natural fields ++ (if fields = 1 then " element" else " elements")
  | tooLong present =>
    "invalid length " ++ Decimal.natural present ++ ", expected fewer elements in array"
  | missingField name => "missing field " ++ ticked name
  | repeatedField name => "duplicate field " ++ ticked name
  | unknownField name known =>
    "unknown field " ++ ticked name ++ ", expected " ++ alternatives known
  | unknownVariant name known =>
    "unknown variant " ++ ticked name ++ ", expected " ++ alternatives known

end Mismatch

namespace Cause

def message : Cause → String
  | malformed what => what.message
  | mismatch what => what.message

end Cause

/-- The length of a text in UTF-8. -/
def byteCount (cs : List Char) : Nat :=
  cs.foldr (fun c n => c.utf8Size + n) 0

/-- A cause and the number of bytes unread at the place it is reported for. -/
structure Fault where
  cause : Cause
  unread : Nat
deriving DecidableEq

namespace Fault

/-- The text is malformed where `rest` begins. -/
def before (what : Malformed) (rest : List Char) : Fault :=
  ⟨.malformed what, byteCount rest⟩

/-- The text is malformed within the first `n` bytes of `rest`, which the place includes as far
as they are there. -/
def within (what : Malformed) (n : Nat) (rest : List Char) : Fault :=
  ⟨.malformed what, byteCount rest - n⟩

/-- The first byte of `rest` makes the text malformed. -/
def upon (what : Malformed) (rest : List Char) : Fault :=
  within what 1 rest

/-- What was read before `rest` is not what was expected. -/
def mismatch (what : Mismatch) (rest : List Char) : Fault :=
  ⟨.mismatch what, byteCount rest⟩

end Fault

/-- Lines count from one; the column is the number of bytes since the line began. -/
structure Position where
  line : Nat
  column : Nat
deriving DecidableEq

namespace Position

/-- Moves a position over the first `n` bytes of a text. -/
def advance (p : Position) : Nat → List Char → Position
  | _, [] => p
  | n, c :: rest =>
    if n = 0 then p
    else if c = '\n' then advance ⟨p.line + 1, 0⟩ (n - 1) rest
    else advance ⟨p.line, p.column + min n c.utf8Size⟩ (n - c.utf8Size) rest

/-- The place in a text that has this many bytes behind it. -/
def ofUnread (text : List Char) (unread : Nat) : Position :=
  advance ⟨1, 0⟩ (byteCount text - unread) text

end Position

/-- Why a text does not decode. A mismatch found in a tree has no position. -/
structure DecodeError where
  cause : Cause
  position : Option Position
deriving DecidableEq

namespace DecodeError

def ofFault (text : List Char) (fault : Fault) : DecodeError :=
  ⟨fault.cause, some (.ofUnread text fault.unread)⟩

def ofMismatch (what : Mismatch) : DecodeError :=
  ⟨.mismatch what, none⟩

def message (e : DecodeError) : String :=
  match e.position with
  | none => e.cause.message
  | some p => e.cause.message ++ " at line " ++ Decimal.natural p.line ++ " column " ++ Decimal.natural p.column

end DecodeError

end ChangeDdl.Json
