import PathPattern.Text.Basic

namespace PathPattern

structure Span where
  start : Nat
  stop : Nat
deriving DecidableEq, Repr

namespace Span

/-- The text of a span.  There is none if the span ends before it starts, or if one of its ends
is no character boundary of the text. -/
def read? (span : Span) (text : Text) : Option Text :=
  if span.start ≤ span.stop then do
    let (_, rest) ← text.splitAt? span.start
    let (value, _) ← rest.splitAt? (span.stop - span.start)
    return value
  else none

end Span

end PathPattern
