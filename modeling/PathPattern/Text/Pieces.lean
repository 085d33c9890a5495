import PathPattern.Text.Basic

namespace PathPattern.Text

/-- Cuts at most `limit` times. -/
def piecesUpTo (separator : Text) : Nat → Text → List Text
  | 0, text => [text]
  | limit + 1, text =>
      match text.breakAt? separator with
      | none => [text]
      | some (front, back) => front :: piecesUpTo separator limit back

/-- The pieces of a text between the occurrences of a separator, which are taken from the left
and do not overlap.  Every cut removes a character of a non-empty separator, so the length of
the text bounds the cuts.  An empty separator stands before, between and after the characters:
it leaves one piece for each character and an empty piece at either end. -/
def pieces (text separator : Text) : List Text :=
  if separator.isEmpty then
    [] :: text.map (fun c => [c]) ++ [[]]
  else
    piecesUpTo separator text.length text

end PathPattern.Text
