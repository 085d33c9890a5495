import PathPattern.Notice
import PathPattern.Proofs.Pattern.Completeness
import PathPattern.Proofs.Search.Silence

namespace PathPattern.Pattern

theorem agreement_or_unchecked (pattern : Pattern) :
    pattern.settings.agreement = true ∨ Search.Unchecked pattern.segments := by
  cases agreement : pattern.settings.agreement with
  | true => exact .inl rfl
  | false =>
      right
      intro key mustAgree member
      rw [mustAgree_of_mem_segments member, agreement]

/-- A pattern captures what committed choice binds on the pieces of the input. -/
theorem capture?_eq_map_deal (pattern : Pattern) (input : Text) :
    pattern.capture? input =
      (Commitment.deal true pattern.settings.separator pattern.segments
        (input.pieces pattern.settings.separator)).map fun bound => .ofList bound.reverse :=
  Search.captures?_of_capturing pattern.separator_ne_nil rfl

theorem accepts_eq_isSome_capture? (pattern : Pattern) (input : Text) :
    pattern.accepts input = (pattern.capture? input).isSome := by
  have quiet : pattern.search input false = (pattern.search input true).quiet := rfl
  rw [accepts, capture?, quiet, Search.isSome_captures?_quiet pattern.agreement_or_unchecked]

/-- A pattern accepts the inputs that it captures, and gives the same notices.  In
general, if settings ask for agreement or no parameter must agree, a search without
captures gives the notices of one with captures, and both match or both fail. -/
theorem accepts_alike_capture? :
    (∀ (pattern : Pattern) (input : Text),
      pattern.accepts input = (pattern.capture? input).isSome ∧
        (pattern.search input false).notices = (pattern.search input true).notices) ∧
    ∀ (settings : Settings) (segments : List Segment) (input : Text),
      settings.separator ≠ [] →
      settings.agreement = true ∨ Search.Unchecked segments →
      let search := Search.of settings segments input
      (search false).notices = (search true).notices ∧
        ((search false).captures?.isSome ∧ (search true).captures?.isSome ∨
          (search false).run.verdict = some .failed ∧
            (search true).run.verdict = some .failed) := by
  refine ⟨?_, ?_⟩
  · intro pattern input
    have kept := pattern.agreement_or_unchecked
    have quiet : pattern.search input false = (pattern.search input true).quiet := rfl
    rw [accepts, capture?, quiet]
    refine ⟨Search.isSome_captures?_quiet kept, ?_⟩
    exact congrArg (List.map Notice.grew) (Search.growths_quiet kept)
  · intro settings segments input separated kept search
    have quiet : search false = (search true).quiet := rfl
    rw [quiet]
    refine ⟨congrArg (List.map Notice.grew) (Search.growths_quiet kept), ?_⟩
    rw [Search.isSome_captures?_quiet kept, Search.failed_quiet kept, and_self, and_self]
    exact Search.isSome_captures?_or_failed separated

/-- The wildcard grows twice, as the first pieces behind it differ from what the key has. -/
theorem accepts_alike_capture?_growing :
    let settings : Settings := { agreement := true }
    let segments : List Segment :=
      [.parameter ['x'] true, .wildcard ['w'], .parameter ['x'] true]
    let search := Search.of settings segments "1/b/2/3/1".toList
    settings.separator ≠ [] ∧ (settings.agreement = true ∨ Search.Unchecked segments) ∧
      (search false).notices = (search true).notices ∧
      (search true).notices = [.grew ⟨1, 2, 2, 2⟩, .grew ⟨1, 2, 2, 4⟩] ∧
      (search false).captures?.isSome ∧ (search true).captures?.isSome := by
  intro settings segments search
  have separated : settings.separator ≠ [] := by decide
  have kept : settings.agreement = true ∨ Search.Unchecked segments := .inl rfl
  obtain ⟨same, matched | ⟨_, failed⟩⟩ := accepts_alike_capture?.2 settings segments
    "1/b/2/3/1".toList separated kept
  · exact ⟨separated, kept, same, by decide, matched⟩
  · exact absurd failed (by decide)

end PathPattern.Pattern
