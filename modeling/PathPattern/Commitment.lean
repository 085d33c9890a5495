import PathPattern.Segment.Basic

namespace PathPattern

/-! # Committed choice

Here the pieces of an input are dealt by choices that are never revised.  The
segments before the first wildcard take a piece each.  Then every wildcard takes
the least number of pieces after which the segments up to the next wildcard can
take a piece each, and keeps them.  A wildcard in the last place takes all that is
left.
-/

namespace Commitment

/-- Keys with their texts, the latest first. -/
abbrev Bound := List (Text × Text)

/-- A wildcard and the segments between it and the next one. -/
structure Stage where
  key : Text
  run : List Segment
deriving DecidableEq, Repr

/-- The segments before the first wildcard, and the stages. -/
def stages : List Segment → List Segment × List Stage
  | [] => ([], [])
  | .wildcard key :: rest => ([], ⟨key, (stages rest).1⟩ :: (stages rest).2)
  | segment :: rest => (segment :: (stages rest).1, (stages rest).2)

/-- Whether a segment that is no wildcard takes a piece. -/
def accepts (bound : Bound) (last : Bool) (piece : Text) : Segment → Bool
  | .literal text => text == piece
  | .parameter key mustAgree =>
      (last || piece != []) && (!mustAgree || (bound.lookup key).all (· == piece))
  | .wildcard _ => false

def remember (enabled : Bool) (key? : Option Text) (text : Text) (bound : Bound) : Bound :=
  match key? with
  | some key => if enabled then (key, text) :: bound else bound
  | none => bound

/-- Deals a piece to each segment of a run and answers the pieces that are left.
The run is `final` if the last of its segments is the last of all. -/
def dealRun (enabled final : Bool) : List Segment → List Text → Bound →
    Option (Bound × List Text)
  | [], pieces, bound => some (bound, pieces)
  | _ :: _, [], _ => none
  | segment :: rest, piece :: pieces, bound =>
      if accepts bound (final && rest.isEmpty) piece segment then
        dealRun enabled final rest pieces (remember enabled segment.key? piece bound)
      else none

/-- Deals to a wildcard, which has `taken` pieces, one piece more, and further
pieces until the run after it can be dealt.  The next wildcard needs a piece; the
end of the segments leaves none. -/
def dealStage (enabled final : Bool) (separator : Text) (stage : Stage) (bound : Bound)
    (taken : List Text) : List Text → Option (Bound × List Text)
  | [] => none
  | piece :: pieces =>
      let block := taken ++ [piece]
      let start := remember enabled (some stage.key) (separator.intercalate block) bound
      match dealRun enabled final stage.run pieces start with
      | some (after, left) =>
          if left.isEmpty = final then some (after, left)
          else dealStage enabled final separator stage bound block pieces
      | none => dealStage enabled final separator stage bound block pieces

def dealStages (enabled : Bool) (separator : Text) : List Stage → List Text → Bound →
    Option Bound
  | [], _, bound => some bound
  | [stage], pieces, bound =>
      if stage.run.isEmpty then
        if pieces.isEmpty then none
        else some (remember enabled (some stage.key) (separator.intercalate pieces) bound)
      else (dealStage enabled true separator stage bound [] pieces).map Prod.fst
  | stage :: rest, pieces, bound => do
      let (after, left) ← dealStage enabled false separator stage bound [] pieces
      dealStages enabled separator rest left after

/-- Deals all pieces to the segments and answers what is bound in the end. -/
def deal (enabled : Bool) (separator : Text) (segments : List Segment)
    (pieces : List Text) : Option Bound :=
  if segments.isEmpty then none
  else
    let (run, rest) := stages segments
    match dealRun enabled rest.isEmpty run pieces [] with
    | none => none
    | some (bound, left) =>
        if left.isEmpty = rest.isEmpty then dealStages enabled separator rest left bound
        else none

end Commitment

end PathPattern
