import PathPattern.Segment.Reading
import PathPattern.Text.Pieces

namespace PathPattern

/-- The readings of a pattern, one for each piece. -/
structure Layout where
  readings : List Reading
  mustAgree : Bool
deriving DecidableEq, Repr

namespace Layout

/-- Numbers readings when `taken` numbered keys are in use. -/
def segmentsFrom (mustAgree : Bool) : Nat → List Reading → List Segment
  | _, [] => []
  | taken, reading :: rest =>
      .ofReading mustAgree taken reading :: segmentsFrom mustAgree (taken + reading.numbers) rest

def segments (layout : Layout) : List Segment :=
  segmentsFrom layout.mustAgree 0 layout.readings

/-- How many numbered keys are in use after readings, when `taken` were before. -/
def takenAfter : Nat → List Reading → Nat
  | taken, [] => taken
  | taken, reading :: rest => takenAfter (taken + reading.numbers) rest

/-- How many numbered keys there are. -/
def numbered (layout : Layout) : Nat := takenAfter 0 layout.readings

def kinds (layout : Layout) : Kinds := .ofSegments layout.segments

/-- Reads a pattern text, refusing it for the leftmost piece that cannot be
read.  Empty pieces count, so a text with a separator at either end asks for one
there. -/
def parse (settings : Settings) (text : Text) : Except PieceError Layout :=
  ((text.pieces settings.separator).mapM (Reading.ofPiece settings)).map fun readings =>
    { readings, mustAgree := settings.agreement }

end Layout

end PathPattern
