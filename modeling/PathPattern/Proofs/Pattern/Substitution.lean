import PathPattern.Proofs.Cut.Filling
import PathPattern.Proofs.Pattern.Completeness

namespace PathPattern.Pattern

open Cut (Coherent)

variable {pattern : Pattern} {input : Text} {captures : Captures}

theorem coherent_of_agreement {blocks : List (List Text)}
    (agreement : pattern.settings.agreement = true) (names : pattern.NamesApart)
    (cut : Search.AgreeingCut pattern.settings.separator pattern.segments input blocks) :
    Coherent pattern.settings.separator pattern.segments blocks := by
  have apart := apart_segments names
  have size := Cut.length_of_dealt cut.1.dealt
  have uniform := (Cut.agrees_iff_uniform size (checked_segments agreement) apart).1 cut.2
  exact Cut.coherent_of_uniform uniform apart pattern.layout.wildcardsDiffer

/-- If a key has one text, because its parameters agree or because there is only one
segment with it, a pattern filled with its captures of an input is the input. -/
theorem fillAll?_capture (names : pattern.NamesApart)
    (kept : pattern.settings.agreement = true ∨ (pattern.segments.filterMap Segment.key?).Nodup)
    (found : pattern.capture? input = some captures) :
    Segment.fillAll? pattern.settings.separator captures.get? pattern.segments = some input := by
  obtain ⟨blocks, earliest, rfl⟩ :=
    Search.earliest_of_captures? pattern.separator_ne_nil rfl found
  have cut : Search.AgreeingCut pattern.settings.separator pattern.segments input blocks :=
    earliest.allowed
  have coherent : Coherent pattern.settings.separator pattern.segments blocks := by
    rcases kept with agreement | distinct
    · exact coherent_of_agreement agreement names cut
    · exact Cut.coherent_of_nodup distinct
  exact Cut.fillAll?_captures cut.1 coherent

/-- A pattern with a key on both sides of its wildcard. -/
def enclosing : Pattern where
  text := "{x}/*/{x}".toList
  settings := { opening := ['{'], closing := ['}'], agreement := true }
  layout := { readings := [.parameter ['x'], .wildcard, .parameter ['x']], mustAgree := true }
  accepted := by decide
  parsed := rfl

/-- The key is tried with another text before the wildcard has grown. -/
theorem fillAll?_capture_enclosing :
    let input : Text := "1/b/2/1".toList
    let captures : Captures := ⟨[(['x'], ['1']), ("$0".toList, "b/2".toList)]⟩
    enclosing.NamesApart ∧ enclosing.settings.agreement = true ∧
      enclosing.capture? input = some captures ∧
      Segment.fillAll? ['/'] captures.get? enclosing.segments = some input := by
  intro input captures
  have names : enclosing.NamesApart := by decide
  have found : enclosing.capture? input = some captures := by decide
  exact ⟨names, rfl, found, fillAll?_capture names (.inl rfl) found⟩

end PathPattern.Pattern
