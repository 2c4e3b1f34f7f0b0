import ChangeDdl.Json.Reader

/-!
Texts between double quotes. `Quoted.read` resolves escapes, `Quoted.skim` only looks for the
closing quote, and `Quoted.write` escapes what cannot stand in a quoted text and nothing else.
-/

set_option autoImplicit false
set_option relaxedAutoImplicit false

namespace ChangeDdl.Json.Quoted

/-- What a letter behind a backslash stands for. -/
def letterEscape : Char → Option Char
  | '"' => some '"'
  | '\\' => some '\\'
  | '/' => some '/'
  | 'b' => some '\x08'
  | 'f' => some '\x0c'
  | 'n' => some '\n'
  | 'r' => some '\r'
  | 't' => some '\t'
  | _ => none

def hexValue (c : Char) : Option Nat :=
  if c.isDigit then some (c.toNat - 48)
  else if 'a' ≤ c ∧ c ≤ 'f' then some (c.toNat - 87)
  else if 'A' ≤ c ∧ c ≤ 'F' then some (c.toNat - 55)
  else none

/-- Four hexadecimal digits. Four bytes are taken before they are looked at. -/
def hexQuad : Reader Nat := fun cs =>
  let quad := cs.take 4
  if byteCount quad < 4 then .error (.before .unfinishedText [])
  else
    match quad.mapM hexValue with
    | some digits => .ok (digits.foldl (fun n digit => 16 * n + digit) 0, cs.drop 4)
    | none => .error (.within .invalidEscape 4 cs)

def isLeading (unit : Nat) : Bool :=
  0xD800 ≤ unit && unit ≤ 0xDBFF

def isTrailing (unit : Nat) : Bool :=
  0xDC00 ≤ unit && unit ≤ 0xDFFF

/-- The backslash and the letter that open the second half of a pair. -/
def secondHalf : Skipper
  | [] => .error (.before .unfinishedText [])
  | ['\\'] => .error (.before .unfinishedText [])
  | '\\' :: 'u' :: rest => .ok rest
  | '\\' :: rest => .error (.upon .unfinishedSurrogate rest)
  | rest => .error (.upon .unfinishedSurrogate rest)

/-- The character that one unit or a pair of surrogates stands for. -/
def unicodeEscape : Reader Char := fun cs => do
  let (unit, rest) ← hexQuad cs
  if isTrailing unit then .error (.before .loneSurrogate rest)
  else if isLeading unit then
    let rest ← secondHalf rest
    let (second, rest) ← hexQuad rest
    if isTrailing second then
      .ok (Char.ofNat (0x10000 + (unit - 0xD800) * 0x400 + (second - 0xDC00)), rest)
    else .error (.before .loneSurrogate rest)
  else .ok (Char.ofNat unit, rest)

/-- An escape behind its backslash. -/
def escape : Reader Char
  | [] => .error (.before .unfinishedText [])
  | 'u' :: rest => unicodeEscape rest
  | c :: rest =>
    match letterEscape c with
    | some meant => .ok (meant, rest)
    | none => .error (.upon .invalidEscape (c :: rest))

/-- The next character of a quoted text, or the quote that ends it. -/
def character : Reader (Option Char)
  | [] => .error (.before .unfinishedText [])
  | '"' :: rest => .ok (none, rest)
  | '\\' :: rest => do
    let (c, rest) ← escape rest
    .ok (some c, rest)
  | c :: rest =>
    if c < ' ' then .error (.upon .controlCharacter (c :: rest)) else .ok (some c, rest)

/-- The characters up to the closing quote, appended to those before, the last of which stands
first. Each takes at least one character of the fuel. -/
def characters : List Char → List Char → Reader (List Char)
  | [], _, cs => .error (.before .unfinishedText cs)
  | _ :: fuel, before, cs => do
    match ← character cs with
    | (none, rest) => .ok (before.reverse, rest)
    | (some c, rest) => characters fuel (c :: before) rest

/-- A quoted text behind its opening quote. -/
def read : Reader String := fun cs => do
  let (text, rest) ← characters ('"' :: cs) [] cs
  .ok (String.ofList text, rest)

/-- Passes over an escape. Surrogates are not paired. -/
def skimEscape : Skipper
  | [] => .error (.before .unfinishedText [])
  | 'u' :: rest => do
    let (_, rest) ← hexQuad rest
    .ok rest
  | c :: rest =>
    if (letterEscape c).isSome then .ok rest else .error (.upon .invalidEscape (c :: rest))

/-- Passes over the next character of a quoted text and says whether it was one, or over the
quote that ends it. -/
def skimCharacter : Reader Bool
  | [] => .error (.before .unfinishedText [])
  | '"' :: rest => .ok (false, rest)
  | '\\' :: rest => do
    let rest ← skimEscape rest
    .ok (true, rest)
  | c :: rest =>
    if c < ' ' then .error (.before .controlCharacter (c :: rest)) else .ok (true, rest)

def skimCharacters : List Char → Skipper
  | [], cs => .error (.before .unfinishedText cs)
  | _ :: fuel, cs => do
    match ← skimCharacter cs with
    | (false, rest) => .ok rest
    | (true, rest) => skimCharacters fuel rest

/-- Passes over a quoted text behind its opening quote. -/
def skim : Skipper := fun cs =>
  skimCharacters ('"' :: cs) cs

def hexDigit (n : Nat) : Char :=
  if n < 10 then Char.ofNat (48 + n) else Char.ofNat (87 + n)

/-- A character as it stands between quotes. -/
def writeChar (c : Char) : List Char :=
  if c = '"' then ['\\', '"']
  else if c = '\\' then ['\\', '\\']
  else if c = '\x08' then ['\\', 'b']
  else if c = '\x0c' then ['\\', 'f']
  else if c = '\n' then ['\\', 'n']
  else if c = '\r' then ['\\', 'r']
  else if c = '\t' then ['\\', 't']
  else if c < ' ' then ['\\', 'u', '0', '0', hexDigit (c.toNat / 16), hexDigit (c.toNat % 16)]
  else [c]

/-- A text between quotes. -/
def write (s : String) : List Char :=
  '"' :: (s.toList.flatMap writeChar ++ ['"'])

end ChangeDdl.Json.Quoted
