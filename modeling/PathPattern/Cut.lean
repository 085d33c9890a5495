import PathPattern.Captures.Basic
import PathPattern.Segment.Basic

namespace PathPattern

/-! # Cuts

A cut deals the pieces of an input to segments in consecutive blocks, one block
for each segment.  It says what a match is without saying how to find one.  Of
several cuts the earliest is the one whose wildcards are shortest, the first
wildcard counting most.
-/

namespace Segment

/-- The blocks that suit a segment.  Only the last segment may bind an empty
piece to a parameter. -/
def Suits (last : Bool) : Segment → List Text → Prop
  | .literal text, block => block = [text]
  | .parameter _ _, [piece] => last = true ∨ piece ≠ []
  | .parameter _ _, _ => False
  | .wildcard _, block => block ≠ []

instance decidableSuits (last : Bool) :
    ∀ segment block, Decidable (Suits last segment block)
  | .literal text, block => inferInstanceAs (Decidable (block = [text]))
  | .parameter _ _, [piece] => inferInstanceAs (Decidable (last = true ∨ piece ≠ []))
  | .parameter _ _, [] => isFalse id
  | .parameter _ _, _ :: _ :: _ => isFalse id
  | .wildcard _, block => inferInstanceAs (Decidable (block ≠ []))

end Segment

/-- Every segment has a block that suits it, and every block a segment. -/
inductive Dealt : List Segment → List (List Text) → Prop where
  | last {segment : Segment} {block : List Text} :
      segment.Suits true block → Dealt [segment] [block]
  | cons {segment next : Segment} {block : List Text} {rest : List Segment}
      {blocks : List (List Text)} :
      segment.Suits false block → Dealt (next :: rest) blocks →
        Dealt (segment :: next :: rest) (block :: blocks)

instance decidableDealt : ∀ segments blocks, Decidable (Dealt segments blocks)
  | [], _ => isFalse nofun
  | [_], [] => isFalse nofun
  | [segment], [block] =>
      decidable_of_iff (segment.Suits true block) ⟨.last, fun | .last suits => suits⟩
  | [_], _ :: _ :: _ => isFalse nofun
  | _ :: _ :: _, [] => isFalse nofun
  | segment :: next :: rest, block :: blocks =>
      have := decidableDealt (next :: rest) blocks
      decidable_of_iff (segment.Suits false block ∧ Dealt (next :: rest) blocks)
        ⟨fun ⟨suits, dealt⟩ => .cons suits dealt, fun | .cons suits dealt => ⟨suits, dealt⟩⟩

structure Cut (segments : List Segment) (pieces : List Text) (blocks : List (List Text)) :
    Prop where
  dealt : Dealt segments blocks
  whole : blocks.flatten = pieces

instance decidableCut (segments : List Segment) (pieces : List Text) (blocks : List (List Text)) :
    Decidable (Cut segments pieces blocks) :=
  decidable_of_iff (Dealt segments blocks ∧ blocks.flatten = pieces)
    ⟨fun ⟨dealt, whole⟩ => ⟨dealt, whole⟩, fun cut => ⟨cut.dealt, cut.whole⟩⟩

namespace Cut

/-- The text of a block. -/
def blockText (separator : Text) (block : List Text) : Text := separator.intercalate block

/-- The keys of the segments with the texts of their blocks, in order. -/
def entries (separator : Text) : List Segment → List (List Text) → List (Text × Text)
  | segment :: segments, block :: blocks =>
      match segment.key? with
      | some key => (key, blockText separator block) :: entries separator segments blocks
      | none => entries separator segments blocks
  | _, _ => []

/-- The captures of a cut: the last segment with a key decides. -/
def captures (separator : Text) (segments : List Segment) (blocks : List (List Text)) :
    Captures :=
  .ofList (entries separator segments blocks)

/-- How many pieces each wildcard has. -/
def lengths : List Segment → List (List Text) → List Nat
  | segment :: segments, block :: blocks =>
      if segment.isWildcard then block.length :: lengths segments blocks
      else lengths segments blocks
  | _, _ => []

/-- Parameters that must agree repeat the latest text of their key, given what was
`bound` before, the latest first. -/
def AgreesAfter (separator : Text) : List (Text × Text) → List Segment → List (List Text) → Prop
  | bound, .literal _ :: segments, _ :: blocks => AgreesAfter separator bound segments blocks
  | bound, .parameter key mustAgree :: segments, block :: blocks =>
      (mustAgree = true → ∀ text ∈ bound.lookup key, text = blockText separator block) ∧
        AgreesAfter separator ((key, blockText separator block) :: bound) segments blocks
  | bound, .wildcard key :: segments, block :: blocks =>
      AgreesAfter separator ((key, blockText separator block) :: bound) segments blocks
  | _, _, _ => True

def Agrees (separator : Text) (segments : List Segment) (blocks : List (List Text)) : Prop :=
  AgreesAfter separator [] segments blocks

/-- Of the blocks that are allowed, none come before these in the order of
wildcard lengths. -/
structure Earliest (segments : List Segment) (Allowed : List (List Text) → Prop)
    (blocks : List (List Text)) : Prop where
  allowed : Allowed blocks
  least : ∀ other, Allowed other →
    ¬ List.Lex (· < ·) (lengths segments other) (lengths segments blocks)

end Cut

end PathPattern
