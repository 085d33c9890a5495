import PathPattern.Text.Basic

namespace PathPattern

/-- What one piece of a pattern asks of an input.  A literal asks for one piece equal to it, a
parameter binds one piece to its key, a wildcard binds one or more, separators included. -/
inductive Segment where
  | literal (text : Text)
  /-- With `mustAgree`, the piece must equal the latest text bound to the key. -/
  | parameter (key : Text) (mustAgree : Bool)
  | wildcard (key : Text)
deriving DecidableEq, Repr

/-- The set of kinds that occur in a list of segments. -/
structure Kinds where
  literal : Bool := false
  parameter : Bool := false
  wildcard : Bool := false
deriving DecidableEq, Repr

namespace Kinds

def union (left right : Kinds) : Kinds where
  literal := left.literal || right.literal
  parameter := left.parameter || right.parameter
  wildcard := left.wildcard || right.wildcard

/-- The set as a number, one binary digit for each kind. -/
def code (kinds : Kinds) : Nat :=
  kinds.literal.toNat + 2 * kinds.parameter.toNat + 4 * kinds.wildcard.toNat

end Kinds

namespace Segment

/-- The key under which a segment captures; a literal captures nothing. -/
def key? : Segment → Option Text
  | .literal _ => none
  | .parameter key _ => some key
  | .wildcard key => some key

def isLiteral : Segment → Bool
  | .literal _ => true
  | _ => false

def isWildcard : Segment → Bool
  | .wildcard _ => true
  | _ => false

def kind : Segment → Kinds
  | .literal _ => { literal := true }
  | .parameter _ _ => { parameter := true }
  | .wildcard _ => { wildcard := true }

end Segment

def Kinds.ofSegments (segments : List Segment) : Kinds :=
  segments.foldl (fun kinds (segment : Segment) => kinds.union segment.kind) {}

end PathPattern
