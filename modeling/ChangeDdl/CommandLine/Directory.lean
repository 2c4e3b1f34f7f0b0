import ChangeDdl.CommandLine.Host
import ChangeDdl.Text.Pieces

/-!
A directory held in memory, and the surroundings of a run in it. Paths are followed name by name;
what lies outside the directory is not known, except that it holds directories.
-/

set_option autoImplicit false
set_option relaxedAutoImplicit false

namespace ChangeDdl.CommandLine

inductive Entry where
  | file (content : ByteArray)
  | directory

/-- A tree of files, as entries at lists of names; what lies above an entry is a directory. -/
structure Directory where
  entries : List (List String × Entry)

namespace Directory

def entry? (d : Directory) (location : List String) : Option Entry :=
  match d.entries.lookup location with
  | some entry => some entry
  | none =>
    if location.isEmpty || d.entries.any fun (names, _) => location.isPrefixOf names then
      some .directory
    else none

/-- A place that a path leads to: inside the directory, or somewhere above it. -/
inductive Place where
  | inside (location : List String)
  | above
deriving DecidableEq

def Place.step (name : String) : Place → Place
  | place =>
    if name = "" ∨ name = "." then place
    else
      match place with
      | inside [] => if name = ".." then above else inside [name]
      | inside location =>
        if name = ".." then inside location.dropLast else inside (location ++ [name])
      | above => above

/-- Follows names from a place, which must be a directory if any are left. Above the directory
nothing is known but directories. -/
def follow (d : Directory) : Place → List String → Except ReadFault ByteArray
  | .above, names =>
    if names.all fun name => name ∈ ["", ".", ".."] then .error .directory else .error .absent
  | .inside location, names =>
    match d.entry? location, names with
    | none, _ => .error .absent
    | some .directory, [] => .error .directory
    | some .directory, name :: names => follow d (Place.step name (.inside location)) names
    | some (.file content), [] => .ok content
    | some (.file _), _ :: _ => .error .belowFile

def readFile (d : Directory) (path : String) : Except ReadFault String := do
  let start := if path.toList.head? = some '/' then Place.above else Place.inside []
  if path = "" then .error .absent
  else
    let content ← d.follow start (Text.split '/' path)
    textOfBytes content

/-- The surroundings of a run in this directory with these bytes on the standard input. -/
def host (d : Directory) (input : ByteArray) : Host Id where
  readFile path := d.readFile path
  readInput := textOfBytes input

end Directory

end ChangeDdl.CommandLine
