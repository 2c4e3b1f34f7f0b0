/-!
Cutting a text at every occurrence of a separator.
-/

set_option autoImplicit false
set_option relaxedAutoImplicit false

namespace ChangeDdl.Text

/-- The pieces between separators, in order; there is one more of them than there are
separators. -/
def pieces (separator : Char) : List Char → List (List Char)
  | [] => [[]]
  | c :: rest =>
    if c = separator then [] :: pieces separator rest
    else
      match pieces separator rest with
      | [] => [[c]]
      | piece :: more => (c :: piece) :: more

def split (separator : Char) (s : String) : List String :=
  (pieces separator s.toList).map String.ofList

end ChangeDdl.Text
