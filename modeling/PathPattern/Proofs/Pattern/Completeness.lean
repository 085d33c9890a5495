import PathPattern.Proofs.Commitment.Anchoring
import PathPattern.Proofs.Layout.Counting
import PathPattern.Proofs.Search.Exactness
import PathPattern.Proofs.Settings.Acceptance

namespace PathPattern.Pattern

open Cut (Earliest LastPlace Uniform keyAt textAt)
open Segment (Anchored Apart Checked Confined)

variable {pattern : Pattern} {blocks : List (List Text)} {place number : Nat}

/-- No name in a pattern is one of its numbered keys. -/
def NamesApart (pattern : Pattern) : Prop :=
  ∀ name, .parameter name ∈ pattern.layout.readings →
    ∀ number < pattern.numbered, name ≠ numberedKey number

instance decidableNamesApart (pattern : Pattern) : Decidable pattern.NamesApart :=
  decidable_of_iff (∀ reading ∈ pattern.layout.readings, ∀ number < pattern.numbered,
      reading ≠ .parameter (numberedKey number))
    ⟨fun apart _ member number below same => apart _ member number below (same ▸ rfl),
      fun apart _ member number below same => apart _ (same ▸ member) number below rfl⟩

/-- The blocks that are a cut of an input in which parameters with one key are equal. -/
def UniformCut (pattern : Pattern) (input : Text) (blocks : List (List Text)) : Prop :=
  Cut pattern.segments (input.pieces pattern.settings.separator) blocks ∧
    Uniform pattern.settings.separator pattern.segments blocks

theorem separator_ne_nil (pattern : Pattern) : pattern.settings.separator ≠ [] :=
  (Settings.fault?_eq_none_iff.1 pattern.accepted).separator_ne_nil

theorem mustAgree_of_mem_segments {key : Text} {mustAgree : Bool}
    (member : .parameter key mustAgree ∈ pattern.segments) :
    mustAgree = pattern.settings.agreement := by
  rw [← Layout.mustAgree_of_parse pattern.parsed]
  exact Layout.mustAgree_of_mem member

theorem checked_segments (agreement : pattern.settings.agreement = true) :
    Checked pattern.segments := by
  intro key mustAgree member
  rw [mustAgree_of_mem_segments member, agreement]

theorem NamesApart.not_numbered (names : pattern.NamesApart)
    (named : pattern.layout.NamedAt place (numberedKey number)) : pattern.numbered ≤ number := by
  refine Nat.le_of_not_lt fun below => ?_
  exact names _ (List.mem_of_getElem? named) number below rfl

/-- A place with a numbered key is the only one with its key. -/
theorem NamesApart.place_eq (names : pattern.NamesApart) {other : Nat}
    (unnamed : pattern.layout.UnnamedAt place number)
    (alike : keyAt pattern.segments other = some (numberedKey number)) : other = place := by
  rcases Layout.keyAt_segments_iff.1 alike with named | ⟨twin, there, same⟩
  · exact absurd unnamed.lt_numbered (Nat.not_lt.2 (names.not_numbered named))
  · obtain rfl := numberedKey_injective same
    exact there.place_eq unnamed

theorem apart_segments (names : pattern.NamesApart) : Apart pattern.segments := by
  intro key mustAgree parameter wild
  obtain ⟨place, here⟩ := List.getElem?_of_mem wild
  obtain ⟨other, there⟩ := List.getElem?_of_mem parameter
  obtain ⟨number, unnamed, rfl⟩ := Layout.exists_unnamedAt_of_wildcard here
  have alike : keyAt pattern.segments other = some (numberedKey number) := by
    simp [keyAt, there, Segment.key?]
  obtain rfl := names.place_eq unnamed alike
  rw [here] at there
  cases there

/-- With agreement, a pattern whose keys are anchored or confined captures an input just
if it has a cut in which parameters with one key are equal, and captures the earliest
one: each key has the text of its last place, and no other key has one. -/
theorem capture?_complete (pattern : Pattern) (input : Text)
    (agreement : pattern.settings.agreement = true) (names : pattern.NamesApart)
    (kept : (∀ key, Anchored pattern.segments key ∨ Confined pattern.segments key) ∨
      pattern.segments.dropLast.countP Segment.isWildcard ≤ 1) :
    let found := pattern.capture? input
    (found.isSome ↔ ∃ blocks, pattern.UniformCut input blocks) ∧
      (∀ captures, found = some captures ↔
        ∃ blocks, Earliest pattern.segments (pattern.UniformCut input) blocks ∧
          captures = Cut.captures pattern.settings.separator pattern.segments blocks) ∧
      ∀ captures, found = some captures →
        ∃ blocks, Earliest pattern.segments (pattern.UniformCut input) blocks ∧
          ∀ key text, captures.get? key = some text ↔
            ∃ place, LastPlace pattern.segments key place ∧
              textAt pattern.settings.separator blocks place = some text := by
  intro found
  have checked := checked_segments agreement
  have apart := apart_segments names
  have keptAll (key : Text) : Anchored pattern.segments key ∨ Confined pattern.segments key := by
    rcases kept with kept | few
    · exact kept key
    · exact Segment.anchored_or_confined few key
  refine Search.exact_of_steady (pattern.search input true) pattern.separator_ne_nil rfl
    (Cut.steady_of_anchored_or_confined checked apart keptAll) ?_
  intro blocks
  refine and_congr_right fun cut => ?_
  exact Cut.agrees_iff_uniform (Cut.length_of_dealt cut.dealt) checked apart

/-- A pattern with a key on both sides of each wildcard. -/
def returning : Pattern where
  text := ":x/*/:x/*/:x".toList
  settings := { agreement := true }
  layout :=
    { readings := [.parameter ['x'], .wildcard, .parameter ['x'], .wildcard,
        .parameter ['x']]
      mustAgree := true }
  accepted := by decide
  parsed := rfl

/-- Both wildcards grow over pieces that differ from the first one. -/
theorem capture?_complete_returning :
    let input : Text := "1/a/2/1/b/3/1".toList
    let captures : Captures :=
      ⟨[(['x'], ['1']), ("$0".toList, "a/2".toList), ("$1".toList, "b/3".toList)]⟩
    returning.settings.agreement = true ∧ returning.NamesApart ∧
      (∀ key, Anchored returning.segments key ∨ Confined returning.segments key) ∧
      (returning.capture? input).isSome ∧ (∃ blocks, returning.UniformCut input blocks) ∧
      ∃ blocks, Earliest returning.segments (returning.UniformCut input) blocks ∧
        captures = Cut.captures ['/'] returning.segments blocks := by
  intro input captures
  have shape : returning.segments = [.parameter ['x'] true, .wildcard ['$', '0'],
      .parameter ['x'] true, .wildcard ['$', '1'], .parameter ['x'] true] := by decide
  have names : returning.NamesApart := by
    intro name member number _ same
    have named : name ∈ [['x']] := by
      change Reading.parameter name ∈ [.parameter ['x'], .wildcard, .parameter ['x'], .wildcard,
        .parameter ['x']] at member
      simpa using member
    rw [List.mem_singleton.1 named] at same
    simp [numberedKey] at same
  have kept (key : Text) : Anchored returning.segments key ∨ Confined returning.segments key := by
    by_cases same : key = ['x']
    · rw [same, shape]
      exact .inl ⟨[], true, _, rfl, by simp [Commitment.Plain]⟩
    · right
      intro before mustAgree between alike after whole
      have member : .parameter key mustAgree ∈ returning.segments := by simp [whole]
      rw [shape] at member
      simp [same] at member
  obtain ⟨matched, captured, _⟩ :=
    capture?_complete returning input rfl names (.inl kept)
  have someCaptures : (returning.capture? input).isSome := by decide
  exact ⟨rfl, names, kept, someCaptures, matched.1 someCaptures,
    (captured captures).1 (by decide)⟩

end PathPattern.Pattern
