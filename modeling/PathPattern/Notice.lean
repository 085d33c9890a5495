import PathPattern.Pattern

namespace PathPattern

/-- What whoever watches is told: that a pattern was refused for one of its pieces, or that a
wildcard grew.  Settings are refused without notice. -/
inductive Notice where
  | refused (text : Text) (fault : PieceError)
  | grew (growth : Search.Growth)
deriving DecidableEq, Repr

namespace Notice

def level : Notice → String
  | .refused _ _ => "DEBUG"
  | .grew _ => "TRACE"

def message : Notice → String
  | .refused _ _ => "pattern compilation failed"
  | .grew _ => "growing wildcard"

end Notice

/-- What is told of a compilation that failed. -/
def CompileError.notices (text : Text) : CompileError → List Notice
  | .settings _ => []
  | .piece fault => [.refused text fault]

/-- What is told of a search, in order. -/
def Search.notices (search : Search) : List Notice := search.run.growths.map .grew

end PathPattern
