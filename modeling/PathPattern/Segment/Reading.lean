import PathPattern.Segment.Basic
import PathPattern.Settings.Basic

namespace PathPattern

/-! # Reading one piece of a pattern

A reading says what a piece is before it has a key.  Named parameters take their
key from the piece; anonymous ones and wildcards take the next of the keys `$0`,
`$1`, and so on.  Whether a piece can be read does not depend on the numbers
given out before it.
-/

inductive Reading where
  | literal (text : Text)
  | parameter (name : Text)
  | anonymous
  | wildcard
deriving DecidableEq, Repr

inductive PieceError where
  /-- The piece has the opening and not the closing. -/
  | unterminated (piece opening closing : Text)
  /-- The piece has the closing and not the opening. -/
  | unopened (piece opening closing : Text)
  /-- The piece is a lone opening or a lone closing. -/
  | nameless (piece : Text)
  /-- The name holds a token, so where it ends is open. -/
  | ambiguous (piece name : Text)
deriving DecidableEq, Repr

def PieceError.message : PieceError → String
  | .unterminated piece opening closing =>
      "parameter segment " ++ piece.quoted ++ " opens with " ++ opening.quoted ++
        " but never reaches " ++ closing.quoted
  | .unopened piece opening closing =>
      "segment " ++ piece.quoted ++ " closes with " ++ closing.quoted ++
        " without an opening " ++ opening.quoted
  | .nameless piece => "parameter segment " ++ piece.quoted ++ " is missing a name"
  | .ambiguous piece name =>
      "parameter key " ++ name.quoted ++ " in segment " ++ piece.quoted ++
        " runs into another parameter token"

namespace Reading

/-- Reads what stands between the opening and the closing of a piece.  Two empty
tokens delimit an empty name as two non-empty ones do; a token that stands alone
does not. -/
def ofName (settings : Settings) (piece name : Text) : Except PieceError Reading :=
  if name.isEmpty then
    if settings.opening.isEmpty = settings.closing.isEmpty then .ok .anonymous
    else .error (.nameless piece)
  else if [settings.opening, settings.closing].any fun token =>
      !token.isEmpty && name.includes token then
    .error (.ambiguous piece name)
  else .ok (.parameter name)

/-- Reads a piece.  The wildcard is looked for first, then the opening, then the
closing in what follows the opening.  An empty token is always found. -/
def ofPiece (settings : Settings) (piece : Text) : Except PieceError Reading :=
  if piece = settings.wildcard then .ok .wildcard
  else
    match settings.opening.isPrefixOf? piece with
    | none =>
        if !settings.closing.isEmpty && settings.closing.isSuffixOf piece then
          .error (.unopened piece settings.opening settings.closing)
        else .ok (.literal piece)
    | some rest =>
        match settings.closing.isSuffixOf? rest with
        | some name => ofName settings piece name
        | none =>
            if settings.opening.isEmpty then .ok (.literal piece)
            else .error (.unterminated piece settings.opening settings.closing)

/-- How many numbered keys a reading takes. -/
def numbers : Reading → Nat
  | .literal _ | .parameter _ => 0
  | .anonymous | .wildcard => 1

end Reading

/-- The key with a given number. -/
def numberedKey (number : Nat) : Text := '$' :: Nat.toDigits 10 number

/-- The segment of a reading, when `taken` numbered keys are in use. -/
def Segment.ofReading (mustAgree : Bool) (taken : Nat) : Reading → Segment
  | .literal text => .literal text
  | .parameter name => .parameter name mustAgree
  | .anonymous => .parameter (numberedKey taken) mustAgree
  | .wildcard => .wildcard (numberedKey taken)

/-- Reads a piece as a segment and counts the numbered keys in use after it. -/
def Segment.ofPiece (settings : Settings) (taken : Nat) (piece : Text) :
    Except PieceError (Segment × Nat) :=
  (Reading.ofPiece settings piece).map fun reading =>
    (.ofReading settings.agreement taken reading, taken + reading.numbers)

/-- Reads pieces one after another and answers each with the count after it.  A piece that
cannot be read is passed over, and the next one starts from the count before it. -/
def Segment.ofEach (settings : Settings) : Nat → List Text → List (Except PieceError Segment × Nat)
  | _, [] => []
  | taken, piece :: rest =>
      match ofPiece settings taken piece with
      | .ok (segment, after) => (.ok segment, after) :: ofEach settings after rest
      | .error fault => (.error fault, taken) :: ofEach settings taken rest

end PathPattern
