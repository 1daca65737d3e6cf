/-!
# BlockForm.Text.Cut — cutting texts at separators

A text is a list of characters here, so that what a cut keeps can be read off by recursion.
-/

namespace BlockForm.Text

/-- Cuts at the first occurrence of the character: what stands before it and what stands after. -/
def cutAt (sep : Char) : List Char → Option (List Char × List Char)
  | [] => none
  | c :: cs =>
    if c = sep then some ([], cs)
    else (cutAt sep cs).map fun (before, after) => (c :: before, after)

/-- Cuts at the first occurrence of the text `sep`. -/
def cutAtText (sep : List Char) : List Char → Option (List Char × List Char)
  | [] => if sep = [] then some ([], []) else none
  | c :: cs =>
    if sep.isPrefixOf (c :: cs) then some ([], (c :: cs).drop sep.length)
    else (cutAtText sep cs).map fun (before, after) => (c :: before, after)

/-- The pieces between all occurrences of the character; a text without any is its only piece. -/
def pieces (sep : Char) : List Char → List (List Char)
  | [] => [[]]
  | c :: cs =>
    if c = sep then [] :: pieces sep cs
    else
      match pieces sep cs with
      | [] => [[c]]
      | p :: ps => (c :: p) :: ps

/-- The text without the given last character. -/
def dropLast? (last : Char) (cs : List Char) : Option (List Char) :=
  if cs.getLast? = some last then some cs.dropLast else none

end BlockForm.Text
