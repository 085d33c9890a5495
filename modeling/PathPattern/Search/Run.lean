import PathPattern.Search.Basic
import PathPattern.Text.Pieces

namespace PathPattern.Search

structure Run where
  growths : List Growth
  /-- There is none if the steps did not suffice. -/
  verdict : Option Verdict
deriving DecidableEq, Repr

def Run.afterGrowth (growth : Growth) (run : Run) : Run :=
  { run with growths := growth :: run.growths }

/-- Runs a search for a number of steps at most. -/
def runFor (search : Search) : Nat → State → Run
  | 0, _ => ⟨[], none⟩
  | steps + 1, state =>
      match search.step state with
      | .advance next => search.runFor steps next
      | .grow growth next => (search.runFor steps next).afterGrowth growth
      | .stop verdict => ⟨[], some verdict⟩

/-- Between two growths a search takes each segment at most once, and with a non-empty separator
it grows at most once for each separator of the input, so this bounds its steps. -/
def budget (search : Search) : Nat :=
  (search.input.pieces search.separator).length * search.segments.length

/-- Without segments there is nothing to search for, and no input matches. -/
def run (search : Search) : Run :=
  if search.segments.isEmpty then ⟨[], some .failed⟩
  else search.runFor search.budget search.initial

/-- The captures of a match, which are empty if they are not wanted.  A search
that ends in no match, or in no verdict, has none. -/
def captures? (search : Search) : Option Captures :=
  match search.run.verdict with
  | some (.matched bindings) =>
      some (if search.capturing then bindings.captures search.input else {})
  | _ => none

end PathPattern.Search
