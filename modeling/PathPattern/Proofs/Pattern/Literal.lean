import PathPattern.Proofs.Pattern.Acceptance
import PathPattern.Proofs.Pattern.Instantiation

namespace PathPattern

open Cut (singly)

namespace Kinds

/-- A kind with keys is in the set. -/
def keyed (kinds : Kinds) : Bool := kinds.parameter || kinds.wildcard

theorem keyed_union (left right : Kinds) :
    (left.union right).keyed = (left.keyed || right.keyed) := by
  cases left with
  | mk _ parameter wildcard => cases parameter <;> cases wildcard <;> simp [keyed, union]

theorem keyed_ofSegments (segments : List Segment) :
    (ofSegments segments).keyed = segments.any fun segment => segment.key?.isSome := by
  suffices all : ∀ kinds : Kinds,
      (segments.foldl (fun kinds (segment : Segment) => kinds.union segment.kind) kinds).keyed =
        (kinds.keyed || segments.any fun segment => segment.key?.isSome) from all {}
  induction segments with
  | nil => simp
  | cons segment rest ih =>
      intro kinds
      have own : segment.kind.keyed = segment.key?.isSome := by cases segment <;> rfl
      rw [List.foldl_cons, ih, keyed_union, own, List.any_cons, Bool.or_assoc]

end Kinds

namespace Cut

variable {separator : Text} {texts : List Text} {blocks : List (List Text)}

theorem eq_singly_of_literals (dealt : Dealt (texts.map .literal) blocks) :
    blocks = singly texts := by
  generalize shape : texts.map Segment.literal = segments at dealt
  induction dealt generalizing texts with
  | last suits =>
      obtain ⟨text, rest, rfl, rfl, none⟩ := List.map_eq_cons_iff.1 shape
      obtain rfl := List.map_eq_nil_iff.1 none
      exact congrArg (fun block => [block]) (show _ = [text] from suits)
  | cons suits _ ih =>
      obtain ⟨text, rest, rfl, rfl, behind⟩ := List.map_eq_cons_iff.1 shape
      rw [singly_cons, ih behind, show _ = [text] from suits]

theorem captures_literals (separator : Text) (texts : List Text) (blocks : List (List Text)) :
    captures separator (texts.map .literal) blocks = {} := by
  have nothing : entries separator (texts.map .literal) blocks = [] := by
    induction texts generalizing blocks with
    | nil => rfl
    | cons text rest ih =>
        cases blocks with
        | nil => rfl
        | cons block blocks => exact ih blocks
  rw [captures, nothing]
  rfl

end Cut

namespace Pattern

variable {pattern : Pattern} {input : Text} {captures : Captures}

theorem isLiteral_eq (pattern : Pattern) :
    pattern.isLiteral = !pattern.segments.any fun segment => segment.key?.isSome := by
  rw [← Kinds.keyed_ofSegments]
  rfl

theorem segments_of_isLiteral (literal : pattern.isLiteral = true) :
    pattern.segments = (pattern.text.pieces pattern.settings.separator).map .literal := by
  have noKeys := pattern.isLiteral_eq.symm.trans literal
  simp only [Bool.not_eq_true', List.any_eq_false] at noKeys
  have size := Layout.length_segments_of_parse pattern.parsed
  apply List.ext_getElem (by rw [List.length_map]; exact size)
  intro place within _
  have here : pattern.segments[place]? = some pattern.segments[place] :=
    List.getElem?_eq_getElem within
  obtain ⟨piece, found, read⟩ := Layout.exists_ofPiece_of_parse pattern.parsed here
  have keyless : pattern.segments[place].key? = none := by
    simpa using noKeys _ (List.getElem_mem within)
  rw [Segment.eq_literal_of_ofPiece read keyless, List.getElem_map,
    (List.getElem?_eq_some_iff.1 found).2]

theorem eq_of_capture?_of_isLiteral (literal : pattern.isLiteral = true)
    (found : pattern.capture? input = some captures) : input = pattern.text ∧ captures = {} := by
  have shape := segments_of_isLiteral literal
  obtain ⟨blocks, earliest, rfl⟩ :=
    Search.earliest_of_captures? pattern.separator_ne_nil rfl found
  have cut : Cut pattern.segments (input.pieces pattern.settings.separator) blocks :=
    earliest.allowed.1
  have single : blocks = singly (pattern.text.pieces pattern.settings.separator) :=
    Cut.eq_singly_of_literals (shape ▸ cut.dealt)
  have same : pattern.text.pieces pattern.settings.separator =
      input.pieces pattern.settings.separator := by
    rw [← cut.whole, single, Cut.flatten_singly]
  refine ⟨?_, ?_⟩
  · rw [← Text.intercalate_pieces input, ← same, Text.intercalate_pieces]
  · exact (congrArg (Cut.captures _ · blocks) shape).trans (Cut.captures_literals _ _ _)

theorem capture?_of_isLiteral (literal : pattern.isLiteral = true) (input : Text) :
    pattern.capture? input = if input = pattern.text then some {} else none := by
  split
  · next same =>
    have shape := segments_of_isLiteral literal
    have filled : pattern.segments.map (Segment.filled id) =
        pattern.text.pieces pattern.settings.separator := by
      rw [shape, List.map_map]
      exact List.map_id _
    have keyless : pattern.segments.filterMap Segment.key? = [] := by
      rw [shape]
      simp [Segment.key?]
    obtain ⟨captures, found, _⟩ := pattern.exists_capture?_of_filled id (by simp [keyless])
    rw [filled, Text.intercalate_pieces] at found
    rw [same, found, (eq_of_capture?_of_isLiteral literal found).2]
  · next other =>
    cases found : pattern.capture? input with
    | none => rfl
    | some captures => exact absurd (eq_of_capture?_of_isLiteral literal found).1 other

theorem exists_two_captured (keyed : pattern.isLiteral = false) :
    ∃ first second, first ≠ second ∧ (pattern.capture? first).isSome ∧
      (pattern.capture? second).isSome := by
  obtain ⟨one, other, differ, unbroken, unbrokenOther⟩ :=
    Text.exists_unbroken_pair pattern.separator_ne_nil
  obtain ⟨captures, found, same⟩ := pattern.exists_capture?_of_filled
    (fun _ => [one]) fun _ _ => ⟨by simp, unbroken⟩
  obtain ⟨capturesOther, foundOther, sameOther⟩ := pattern.exists_capture?_of_filled
    (fun _ => [other]) fun _ _ => ⟨by simp, unbrokenOther⟩
  refine ⟨_, _, ?_, by rw [found]; rfl, by rw [foundOther]; rfl⟩
  -- Were the inputs equal, one capture would give a key both texts.
  intro equal
  obtain ⟨key, member⟩ : ∃ key, key ∈ pattern.segments.filterMap Segment.key? := by
    rw [isLiteral_eq, Bool.not_eq_false', List.any_eq_true] at keyed
    obtain ⟨segment, member, own⟩ := keyed
    obtain ⟨key, own⟩ := Option.isSome_iff_exists.1 own
    exact ⟨key, List.mem_filterMap.2 ⟨segment, member, own⟩⟩
  obtain rfl : captures = capturesOther := by
    rw [equal, foundOther] at found
    exact (Option.some.inj found).symm
  have both := (same key).symm.trans (sameOther key)
  simp [member, differ] at both

/-- A literal pattern accepts its own text and no other, and captures nothing of it.  Any
other pattern accepts two texts at least. -/
theorem accepts_of_isLiteral (pattern : Pattern) :
    (pattern.isLiteral = true → ∀ input,
      (pattern.accepts input = true ↔ input = pattern.text) ∧
        pattern.capture? input = if input = pattern.text then some {} else none) ∧
    (pattern.isLiteral = false → ∃ first second, first ≠ second ∧
      pattern.accepts first = true ∧ pattern.accepts second = true) := by
  refine ⟨?_, ?_⟩
  · intro literal input
    have captured := capture?_of_isLiteral literal input
    refine ⟨?_, captured⟩
    rw [accepts_eq_isSome_capture?, captured]
    by_cases same : input = pattern.text <;> simp [same]
  · intro keyed
    obtain ⟨first, second, differ, found, foundOther⟩ := exists_two_captured keyed
    refine ⟨first, second, differ, ?_, ?_⟩
    · rw [accepts_eq_isSome_capture?, found]
    · rw [accepts_eq_isSome_capture?, foundOther]

/-- A pattern with a separator that occurs in its text twice, once across the other. -/
def overlapping : Pattern where
  text := "aaab".toList
  settings := { separator := "aa".toList }
  layout := { readings := [.literal [], .literal "ab".toList], mustAgree := false }
  accepted := by decide
  parsed := rfl

theorem accepts_of_isLiteral_overlapping :
    overlapping.isLiteral = true ∧
      (∀ input, overlapping.accepts input = true ↔ input = "aaab".toList) ∧
      dashed.isLiteral = false ∧ ∃ first second, first ≠ second ∧
        dashed.accepts first = true ∧ dashed.accepts second = true := by
  have literal : overlapping.isLiteral = true := by decide
  have keyed : dashed.isLiteral = false := by decide
  exact ⟨literal, fun input => ((accepts_of_isLiteral overlapping).1 literal input).1, keyed,
    (accepts_of_isLiteral dashed).2 keyed⟩

end Pattern

end PathPattern
