import PathPattern.Captures.Basic
import PathPattern.Text.Span

namespace PathPattern

/-! # Bindings

While a match is in progress, keys are bound to spans of the input.  A key may
be bound many times, and the latest binding counts.  Bindings are undone latest
first: `keep` leaves as many as there were at an earlier moment.  Texts are read
from the spans only when somebody asks.
-/

structure Bindings where
  /-- Whether binding has an effect at all. -/
  enabled : Bool
  /-- The oldest binding comes first. -/
  entries : List (Text × Span) := []
deriving DecidableEq, Repr

namespace Bindings

def size (bindings : Bindings) : Nat := bindings.entries.length

def bind (bindings : Bindings) (key : Text) (span : Span) : Bindings :=
  if bindings.enabled then
    { bindings with entries := bindings.entries ++ [(key, span)] }
  else bindings

def keep (bindings : Bindings) (count : Nat) : Bindings :=
  { bindings with entries := bindings.entries.take count }

def latest? (bindings : Bindings) (key : Text) : Option Span :=
  bindings.entries.reverse.lookup key

/-- The text that a key has now.  A latest span that cannot be read gives none,
whatever the key was bound to before. -/
def text? (bindings : Bindings) (input key : Text) : Option Text :=
  (bindings.latest? key).bind fun span => span.read? input

/-- The texts that the bindings read from an input, in order.  Spans that cannot
be read are left out. -/
def texts (bindings : Bindings) (input : Text) : List (Text × Text) :=
  bindings.entries.filterMap fun (key, span) => (span.read? input).map fun value => (key, value)

/-- The captures that the bindings make of an input.  Where the latest span of a
key cannot be read, an older text of it stays. -/
def captures (bindings : Bindings) (input : Text) : Captures := .ofList (bindings.texts input)

@[simp] theorem keep_enabled (bindings : Bindings) (count : Nat) :
    (bindings.keep count).enabled = bindings.enabled := rfl

@[simp] theorem bind_enabled (bindings : Bindings) (key : Text) (span : Span) :
    (bindings.bind key span).enabled = bindings.enabled := by
  unfold bind
  split <;> rfl

theorem keep_of_size_le {bindings : Bindings} {count : Nat}
    (beyond : bindings.size ≤ count) : bindings.keep count = bindings := by
  simp only [keep, List.take_of_length_le beyond]

theorem keep_bind {bindings : Bindings} {count : Nat} (key : Text) (span : Span)
    (within : count ≤ bindings.size) :
    (bindings.bind key span).keep count = bindings.keep count := by
  unfold bind
  split
  · simp only [keep, List.take_append_of_le_length within]
  · rfl

end Bindings

end PathPattern
