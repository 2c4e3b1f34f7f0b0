import ChangeDdl.Json.Items
import ChangeDdl.Json.Numeral

/-!
Passing over a value that nobody wants. It has to be well formed, but no more than its brackets,
quotes and numerals are looked at: it may nest to any depth, its surrogates are not paired, and
its numbers have no range.
-/

set_option autoImplicit false
set_option relaxedAutoImplicit false

namespace ChangeDdl.Json

/-- Passes over a value without parts, at its first character. -/
def skimScalar : Skipper
  | [] => .error (.upon .unfinishedValue [])
  | 'n' :: rest => word ['u', 'l', 'l'] rest
  | 't' :: rest => word ['r', 'u', 'e'] rest
  | 'f' :: rest => word ['a', 'l', 's', 'e'] rest
  | '"' :: rest => Quoted.skim rest
  | c :: rest =>
    if c = '-' ∨ c.isDigit then Numeral.skim (c :: rest)
    else .error (.upon .expectedValue (c :: rest))

/-- Passes over the items of a list and its closing bracket. An item is looked for right behind
a comma. -/
def skimItems (value : Skipper) : List Char → Bool → Skipper
  | [], _, cs => .error (.upon .unfinishedList cs)
  | _ :: fuel, first, cs =>
    match skipBlanks cs with
    | [] => .error (.upon .unfinishedList [])
    | ']' :: rest => .ok rest
    | c :: rest => do
      if first then
        let rest ← value (c :: rest)
        skimItems value fuel false rest
      else if c = ',' then
        let rest ← value rest
        skimItems value fuel false rest
      else .error (.upon .expectedCommaOrBracket (c :: rest))

/-- Passes over a key, its colon and its value. -/
def skimMember (value : Skipper) : Skipper := fun cs =>
  match skipBlanks cs with
  | [] => .error (.upon .unfinishedObject [])
  | '"' :: rest => do
    let rest ← Quoted.skim rest
    let rest ← colon rest
    value rest
  | rest => .error (.upon .keyNotText rest)

/-- Passes over the members of an object and its closing brace. A key is looked for right behind
a comma. -/
def skimMembers (value : Skipper) : List Char → Bool → Skipper
  | [], _, cs => .error (.upon .unfinishedObject cs)
  | _ :: fuel, first, cs =>
    match skipBlanks cs with
    | [] => .error (.upon .unfinishedObject [])
    | '}' :: rest => .ok rest
    | c :: rest => do
      if first then
        let rest ← skimMember value (c :: rest)
        skimMembers value fuel false rest
      else if c = ',' then
        let rest ← skimMember value rest
        skimMembers value fuel false rest
      else .error (.upon .expectedCommaOrBrace (c :: rest))

/-- Passes over the next value, which is no longer than the fuel. -/
def skimWith : List Char → Skipper
  | [], cs => .error (.upon .unfinishedValue cs)
  | _ :: fuel, cs =>
    match skipBlanks cs with
    | '[' :: rest => skimItems (skimWith fuel) fuel true rest
    | '{' :: rest => skimMembers (skimWith fuel) fuel true rest
    | rest => skimScalar rest

def skim : Skipper := fun cs =>
  skimWith (':' :: cs) cs

end ChangeDdl.Json
