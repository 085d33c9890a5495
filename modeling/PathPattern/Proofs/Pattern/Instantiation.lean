import PathPattern.Proofs.Commitment.Single
import PathPattern.Proofs.Layout.Rendering
import PathPattern.Proofs.Pattern.Acceptance
import PathPattern.Proofs.Text.Joining

namespace PathPattern

open Cut (singly)
open Segment (filled)

variable {texts : Text → Text}

namespace Pattern

variable {pattern : Pattern}

theorem segments_ne_nil (pattern : Pattern) : pattern.segments ≠ [] := by
  intro empty
  have size := Layout.length_segments_of_parse pattern.parsed
  rw [show pattern.layout.segments = [] from empty] at size
  exact Text.pieces_ne_nil _ _ (List.eq_nil_of_length_eq_zero size.symm)

/-- The segments filled with unbroken texts are the pieces of the text they make. -/
theorem separable_filled (unbroken : ∀ key ∈ pattern.segments.filterMap Segment.key?,
      Text.Unbroken pattern.settings.separator (texts key)) :
    Text.Separable pattern.settings.separator (pattern.segments.map (filled texts)) := by
  refine (Text.separable_pieces pattern.separator_ne_nil pattern.text).replace
    pattern.separator_ne_nil ?_ ?_
  · rw [List.length_map, segments, Layout.length_segments_of_parse pattern.parsed]
  · intro place other here
    rw [List.getElem?_map] at here
    obtain ⟨segment, found, rfl⟩ := Option.map_eq_some_iff.1 here
    cases own : segment.key? with
    | some key =>
        right
        rw [Segment.filled_of_key own]
        exact unbroken key (List.mem_filterMap.2 ⟨segment, List.mem_of_getElem? found, own⟩)
    | none =>
        left
        obtain ⟨piece, piecesHere, read⟩ := Layout.exists_ofPiece_of_parse pattern.parsed found
        rw [piecesHere, Segment.eq_literal_of_ofPiece read own]
        rfl

theorem exists_capture?_of_filled (pattern : Pattern) (texts : Text → Text)
    (whole : ∀ key ∈ pattern.segments.filterMap Segment.key?,
      texts key ≠ [] ∧ Text.Unbroken pattern.settings.separator (texts key)) :
    ∃ captures, pattern.capture? (pattern.settings.separator.intercalate
        (pattern.segments.map (filled texts))) = some captures ∧
      ∀ key, captures.get? key =
        if key ∈ pattern.segments.filterMap Segment.key? then some (texts key) else none := by
  have separable := pattern.separable_filled fun key member => (whole key member).2
  have fits : Cut.Fits pattern.settings.separator [] pattern.segments
      (singly (pattern.segments.map (filled texts))) := by
    refine Cut.fits_filled ?_ (by simp)
    intro segment member key own
    exact (whole key (List.mem_filterMap.2 ⟨segment, member, own⟩)).1
  have captured : pattern.capture? (pattern.settings.separator.intercalate
        (pattern.segments.map (filled texts))) =
      some (Cut.captures pattern.settings.separator pattern.segments
        (singly (pattern.segments.map (filled texts)))) := by
    rw [capture?_eq_map_deal, Text.pieces_intercalate pattern.separator_ne_nil separable,
      Cut.deal_of_singly pattern.segments_ne_nil fits, Option.map_some]
    simp [Cut.learned, Cut.captures]
  refine ⟨_, captured, ?_⟩
  intro key
  rw [Cut.captures, Captures.get?_ofList, Cut.lookup_reverse_entries_filled]

/-- A pattern filled with a text for each of its keys, none empty and all unbroken, captures
just these texts. -/
theorem capture?_fillAll? (pattern : Pattern) (texts : Text → Text)
    (whole : ∀ key ∈ pattern.segments.filterMap Segment.key?,
      texts key ≠ [] ∧ Text.Unbroken pattern.settings.separator (texts key)) :
    ∃ input captures,
      Segment.fillAll? pattern.settings.separator (fun key => some (texts key))
        pattern.segments = some input ∧
      pattern.capture? input = some captures ∧
      ∀ key, captures.get? key =
        if key ∈ pattern.segments.filterMap Segment.key? then some (texts key) else none := by
  obtain ⟨captures, found, same⟩ := pattern.exists_capture?_of_filled texts whole
  exact ⟨_, captures, Segment.fillAll?_some _ _ _, found, same⟩

/-- A pattern with a separator that overlaps the literal behind it. -/
def dashed : Pattern where
  text := "{x}--*---b--*--{x}".toList
  settings := { separator := "--".toList, opening := ['{'], closing := ['}'], agreement := true }
  layout :=
    { readings := [.parameter ['x'], .wildcard, .literal "-b".toList, .wildcard,
        .parameter ['x']]
      mustAgree := true }
  accepted := by decide
  parsed := rfl

/-- Dashes inside the texts, and in front of them, are no separators. -/
theorem capture?_fillAll?_dashed :
    let texts : Text → Text := fun key =>
      if key = ['x'] then "1-2".toList else if key = "$0".toList then "-a".toList else ['c']
    (∀ key ∈ dashed.segments.filterMap Segment.key?,
      texts key ≠ [] ∧ Text.Unbroken "--".toList (texts key)) ∧
      ∃ captures, dashed.capture? "1-2---a---b--c--1-2".toList = some captures ∧
        captures.get? ['x'] = some "1-2".toList ∧ captures.get? "$0".toList = some "-a".toList ∧
        captures.get? "$1".toList = some ['c'] ∧ captures.get? ['y'] = none := by
  intro texts
  have whole : ∀ key ∈ dashed.segments.filterMap Segment.key?,
      texts key ≠ [] ∧ Text.Unbroken "--".toList (texts key) := by decide
  obtain ⟨input, captures, filled, found, same⟩ := capture?_fillAll? dashed texts whole
  obtain rfl : "1-2---a---b--c--1-2".toList = input := Option.some.inj filled
  exact ⟨whole, captures, found, same ['x'], same "$0".toList, same "$1".toList, same ['y']⟩

end Pattern

end PathPattern
