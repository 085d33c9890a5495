import PathPattern.Proofs.Layout.Rendering
import PathPattern.Proofs.Pattern.Completeness

namespace PathPattern.Pattern

theorem text_of_written (pattern : Pattern) :
    pattern.settings.separator.intercalate (pattern.layout.written pattern.settings) =
      pattern.text := by
  rw [Layout.written_of_parse pattern.parsed, Text.intercalate_pieces]

/-- A pattern has one segment for each piece, read with the count that the pieces before
it left, and its segments written again are its text.  With one-sided settings no
parameter takes a number, so two patterns with the same segments are the same text. -/
theorem written_segments (pattern : Pattern) :
    let settings := pattern.settings
    let pieces := pattern.text.pieces settings.separator
    pattern.segments.length = pieces.length ∧
      (∀ place piece, pieces[place]? = some piece →
        ∃ segment, pattern.segments[place]? = some segment ∧
          Segment.ofPiece settings (pattern.layout.takenBefore place) piece =
            .ok (segment, pattern.layout.takenBefore (place + 1))) ∧
      settings.separator.intercalate (pattern.layout.written settings) = pattern.text ∧
      (settings.OneSided →
        (∀ place key mustAgree, pattern.segments[place]? = some (.parameter key mustAgree) →
          pattern.layout.takenBefore (place + 1) = pattern.layout.takenBefore place) ∧
        ∀ other : Pattern, other.settings = settings → other.segments = pattern.segments →
          other.text = pattern.text) := by
  intro settings pieces
  have parsed : Layout.parse settings pattern.text = .ok pattern.layout := pattern.parsed
  refine ⟨Layout.length_segments_of_parse parsed, ?_, pattern.text_of_written, ?_⟩
  · intro place piece here
    exact Layout.ofPiece_of_parse parsed here
  · intro oneSided
    refine ⟨?_, ?_⟩
    · intro place key mustAgree parameter
      obtain ⟨piece, _, read⟩ := Layout.exists_ofPiece_of_parse parsed parameter
      exact Segment.after_eq_of_oneSided oneSided read
    · intro other sameSettings sameSegments
      have parsedOther : Layout.parse settings other.text = .ok other.layout :=
        sameSettings ▸ other.parsed
      calc
        other.text = settings.separator.intercalate (other.layout.written settings) := by
          rw [← other.text_of_written, sameSettings]
        _ = settings.separator.intercalate
              (pattern.segments.map (Segment.write settings false)) := by
          rw [Layout.written_of_oneSided parsedOther oneSided]
          exact congrArg _ (congrArg _ sameSegments)
        _ = settings.separator.intercalate (pattern.layout.written settings) := by
          rw [Layout.written_of_oneSided parsed oneSided]
          rfl
        _ = pattern.text := pattern.text_of_written

/-- A pattern whose parameter has only an opening before its name. -/
def opened : Pattern where
  text := "/users/:id/*".toList
  settings := {}
  layout :=
    { readings := [.literal [], .literal "users".toList, .parameter "id".toList, .wildcard]
      mustAgree := false }
  accepted := by decide
  parsed := rfl

/-- The wildcard takes a number and the parameter does not.  No other text has the
segments of this one. -/
theorem written_segments_opened :
    Settings.OneSided {} ∧
      ['/'].intercalate (opened.layout.written {}) = "/users/:id/*".toList ∧
      opened.layout.takenBefore 3 = opened.layout.takenBefore 2 ∧
      ∀ other : Pattern, other.settings = {} →
        other.segments = [.literal [], .literal "users".toList, .parameter "id".toList false,
          .wildcard "$0".toList] →
        other.text = "/users/:id/*".toList := by
  have oneSided : Settings.OneSided {} := by simp [Settings.OneSided]
  obtain ⟨_, _, whole, onlyNames⟩ := written_segments opened
  obtain ⟨unnumbered, determined⟩ := onlyNames oneSided
  exact ⟨oneSided, whole, unnumbered 2 "id".toList false (by decide), determined⟩

end PathPattern.Pattern
