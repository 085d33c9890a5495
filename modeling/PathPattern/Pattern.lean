import PathPattern.Layout
import PathPattern.Search.Run

namespace PathPattern

/-- A text together with accepted settings under which it can be read. -/
structure Pattern where
  text : Text
  settings : Settings
  layout : Layout
  accepted : settings.fault? = none
  parsed : Layout.parse settings text = .ok layout
deriving DecidableEq

inductive CompileError where
  | settings (fault : SettingsError)
  | piece (fault : PieceError)
deriving DecidableEq, Repr

def CompileError.message : CompileError → String
  | .settings fault => fault.message
  | .piece fault => fault.message

/-- The search for a match of segments written under some settings. -/
def Search.of (settings : Settings) (segments : List Segment) (input : Text)
    (capturing : Bool) : Search where
  segments := segments
  separator := settings.separator
  input := input
  capturing := capturing
  comparing := settings.agreement

namespace Pattern

def compile (settings : Settings) (text : Text) : Except CompileError Pattern :=
  match accepted : settings.fault? with
  | some fault => .error (.settings fault)
  | none =>
      match parsed : Layout.parse settings text with
      | .error fault => .error (.piece fault)
      | .ok layout => .ok { text, settings, layout, accepted, parsed }

/-- Compiles under the default settings with some changes made in order. -/
def compileWith (changes : List Setting) (text : Text) : Except CompileError Pattern :=
  match Settings.ofList changes with
  | .error fault => .error (.settings fault)
  | .ok settings => compile settings text

def segments (pattern : Pattern) : List Segment := pattern.layout.segments

def kinds (pattern : Pattern) : Kinds := pattern.layout.kinds

/-- How many numbered keys the pattern has. -/
def numbered (pattern : Pattern) : Nat := pattern.layout.numbered

/-- Whether the pattern asks for literals only. -/
def isLiteral (pattern : Pattern) : Bool := !(pattern.kinds.parameter || pattern.kinds.wildcard)

def hasWildcard (pattern : Pattern) : Bool := pattern.kinds.wildcard

def search (pattern : Pattern) (input : Text) (capturing : Bool) : Search :=
  .of pattern.settings pattern.segments input capturing

def accepts (pattern : Pattern) (input : Text) : Bool :=
  (pattern.search input false).captures?.isSome

/-- The captures of an input that is accepted. -/
def capture? (pattern : Pattern) (input : Text) : Option Captures :=
  (pattern.search input true).captures?

end Pattern

end PathPattern
