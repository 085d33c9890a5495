import PathPattern.Segment.Basic

namespace PathPattern.Segment

/-- A literal stands for itself, and the text of a key in the place of its segment. -/
def fill? (texts : Text → Option Text) : Segment → Option Text
  | .literal text => some text
  | .parameter key _ => texts key
  | .wildcard key => texts key

/-- Fills all segments; a key without a text leaves nothing. -/
def fillAll? (separator : Text) (texts : Text → Option Text) (segments : List Segment) :
    Option Text :=
  (segments.mapM (fill? texts)).map separator.intercalate

end PathPattern.Segment
