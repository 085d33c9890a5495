import PathPattern.Text.Span

namespace PathPattern

/-- Where a run of pieces ends. -/
structure Boundary where
  stop : Nat
  /-- No separator follows, so the run ends with the text. -/
  atEnd : Bool
deriving DecidableEq, Repr

/-- The first boundary from an offset on.  An offset that cuts no text has none. -/
def Boundary.find? (input separator : Text) (offset : Nat) : Option Boundary :=
  (input.splitAt? offset).map fun (_, rest) =>
    match rest.breakAt? separator with
    | some (front, _) => ⟨offset + front.byteSize, false⟩
    | none => ⟨input.byteSize, true⟩

end PathPattern
