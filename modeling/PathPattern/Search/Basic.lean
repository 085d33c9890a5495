import PathPattern.Captures.Bindings
import PathPattern.Search.Boundary
import PathPattern.Segment.Basic

namespace PathPattern

/-! # Searching an input for a match

A search offers the pieces of an input to segments, from left to right.  Each
segment but the wildcards takes one piece.  A wildcard starts with one piece and
becomes the place to fall back to; when a later segment refuses its piece, the
search returns there and the wildcard grows by one piece.  There is one such place
at a time, so a wildcard keeps its length for good once the next one is reached.

Places in the input are byte offsets.  A search never leaves its segments or the
character boundaries of its input; the verdict `strayed` is there to say so.
-/

namespace Segment

/-- Whether a segment takes a run of the input.  Only the last segment may bind
an empty text to a parameter. -/
def accepts (segment : Segment) (bindings : Bindings) (input value : Text) (last : Bool) : Bool :=
  match segment with
  | .literal text => text == value
  | .parameter key mustAgree =>
      (last || !value.isEmpty) && (!mustAgree || (bindings.text? input key).all (· == value))
  | .wildcard _ => true

def record (segment : Segment) (bindings : Bindings) (span : Span) : Bindings :=
  match segment.key? with
  | some key => bindings.bind key span
  | none => bindings

end Segment

structure Search where
  segments : List Segment
  separator : Text
  input : Text
  /-- Captures are wanted, and not only whether there is a match. -/
  capturing : Bool
  /-- Bindings are made for comparison even if captures are not wanted. -/
  comparing : Bool
deriving DecidableEq, Repr

namespace Search

/-- A wildcard that can still grow. -/
structure Fallback where
  wildcard : Nat
  /-- The offset at which the wildcard starts. -/
  start : Nat
  /-- How far behind its start the wildcard has been extended, with the separator. -/
  reach : Nat
  /-- How many bindings there were before the wildcard. -/
  bound : Nat
deriving DecidableEq, Repr

structure State where
  index : Nat := 0
  offset : Nat := 0
  /-- How far behind the offset the next boundary is looked for. -/
  reach : Nat := 0
  fallback : Option Fallback := none
  bindings : Bindings
deriving DecidableEq, Repr

inductive Verdict where
  | matched (bindings : Bindings)
  | failed
  /-- There was no segment at the index, or the input cannot be cut at an offset. -/
  | strayed
deriving DecidableEq, Repr

/-- A wildcard grows because a later segment refused its piece. -/
structure Growth where
  wildcard : Nat
  refused : Nat
  /-- The offset at which the wildcard starts. -/
  start : Nat
  /-- How far behind its start the wildcard extended before. -/
  reach : Nat
deriving DecidableEq, Repr

inductive Step where
  | advance (state : State)
  | grow (growth : Growth) (state : State)
  | stop (verdict : Verdict)
deriving DecidableEq, Repr

def initial (search : Search) : State where
  bindings := { enabled := search.capturing || search.comparing }

def atLast (search : Search) (state : State) : Bool :=
  state.index + 1 == search.segments.length

/-- Where the run offered to a segment ends.  A wildcard in the last place is
offered all that is left. -/
def boundary? (search : Search) (state : State) (segment : Segment) : Option Boundary :=
  if segment.isWildcard && search.atLast state then some ⟨search.input.byteSize, true⟩
  else Boundary.find? search.input search.separator (state.offset + state.reach)

/-- Goes on behind a run that the segment at hand has taken. -/
def takeRun (search : Search) (state : State) (segment : Segment) (stop : Nat) : Step :=
  let bindings := segment.record state.bindings ⟨state.offset, stop⟩
  if search.atLast state then .stop (.matched bindings)
  else
    let next := stop + search.separator.byteSize
    let fallback :=
      if segment.isWildcard then
        some {
          wildcard := state.index
          start := state.offset
          reach := next - state.offset
          bound := state.bindings.size }
      else state.fallback
    .advance { index := state.index + 1, offset := next, reach := 0, fallback, bindings }

/-- Falls back after a segment has refused its run. -/
def fallBack (state : State) : Step :=
  match state.fallback with
  | none => .stop .failed
  | some place =>
      .grow
        { wildcard := place.wildcard
          refused := state.index
          start := place.start
          reach := place.reach }
        { index := place.wildcard
          offset := place.start
          reach := place.reach
          fallback := state.fallback
          bindings := state.bindings.keep place.bound }

/-- One step of a search.  An input that ends before the last segment has no
match, whatever could still grow; the last segment must take all that is left. -/
def step (search : Search) (state : State) : Step :=
  match search.segments[state.index]? with
  | none => .stop .strayed
  | some segment =>
      let last := search.atLast state
      match search.boundary? state segment with
      | none => .stop .strayed
      | some boundary =>
          if boundary.atEnd && !last then .stop .failed
          else
            match Span.read? ⟨state.offset, boundary.stop⟩ search.input with
            | none => .stop .strayed
            | some value =>
                if segment.accepts state.bindings search.input value last &&
                    boundary.atEnd == last then
                  search.takeRun state segment boundary.stop
                else fallBack state

/-- The states that a search comes through. -/
inductive Reaches (search : Search) : State → Prop where
  | initial : Reaches search search.initial
  | advance {state next : State} :
      Reaches search state → search.step state = .advance next → Reaches search next
  | grow {state next : State} {growth : Growth} :
      Reaches search state → search.step state = .grow growth next → Reaches search next

end Search

end PathPattern
