/-!
Cutting a text at a character.
-/

namespace FlowLint.Text

/-- The pieces between the occurrences of `sep`, one more than those. -/
def pieces (sep : Char) : List Char → List (List Char)
  | []      => [[]]
  | c :: cs =>
    if c = sep then [] :: pieces sep cs
    else
      match pieces sep cs with
      | []      => [[c]]
      | p :: ps => (c :: p) :: ps

/-- What stands before and after the first two characters in a row that are both `sep`. -/
def cutAtPair? (sep : Char) : List Char → Option (List Char × List Char)
  | a :: b :: cs =>
    if a = sep ∧ b = sep then some ([], cs)
    else (cutAtPair? sep (b :: cs)).map fun (before, after) => (a :: before, after)
  | _            => none

/-- What stands before and after the last `sep`. -/
def cutAtLast? (sep : Char) : List Char → Option (List Char × List Char)
  | []      => none
  | c :: cs =>
    match cutAtLast? sep cs with
    | some (before, after) => some (c :: before, after)
    | none                 => if c = sep then some ([], cs) else none

end FlowLint.Text
