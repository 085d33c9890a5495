import PathPattern.Proofs.Commitment.Refinement
import PathPattern.Proofs.Commitment.Soundness
import PathPattern.Proofs.Cut.Occurrences

namespace PathPattern.Search

open Cut (Earliest FitsWhole NearestBefore LastPlace textAt)

variable {search : Search} {captures : Captures}

/-- The blocks that are a cut of an input in which parameters that must agree do. -/
def AgreeingCut (separator : Text) (segments : List Segment) (input : Text)
    (blocks : List (List Text)) : Prop :=
  Cut segments (input.pieces separator) blocks ∧ Cut.Agrees separator segments blocks

theorem fitsWhole_iff {separator input : Text} {segments : List Segment}
    {blocks : List (List Text)} (nonempty : segments ≠ []) :
    FitsWhole separator [] segments (input.pieces separator) blocks ↔
      AgreeingCut separator segments input blocks := by
  rw [FitsWhole, Cut.fits_iff nonempty]
  refine ⟨?_, ?_⟩
  · intro fits
    exact ⟨⟨fits.1.1, fits.2⟩, fits.1.2⟩
  · intro cut
    exact ⟨⟨cut.1.dealt, cut.2⟩, cut.1.whole⟩

theorem enabled_of_capturing (capturing : search.capturing = true) :
    search.initial.bindings.enabled = true := by
  simp [initial, capturing]

theorem captures?_of_capturing (separated : search.separator ≠ [])
    (capturing : search.capturing = true) :
    search.captures? = (Commitment.deal true search.separator search.segments
      (search.input.pieces search.separator)).map fun bound => .ofList bound.reverse := by
  simp only [captures?_eq_of_separated search separated, enabled_of_capturing capturing, capturing,
    if_true]

theorem earliest_of_captures? (separated : search.separator ≠ [])
    (capturing : search.capturing = true) (found : search.captures? = some captures) :
    ∃ blocks, Earliest search.segments
        (AgreeingCut search.separator search.segments search.input) blocks ∧
      captures = Cut.captures search.separator search.segments blocks := by
  rw [captures?_of_capturing separated capturing, Option.map_eq_some_iff] at found
  obtain ⟨known, dealt, same⟩ := found
  obtain ⟨blocks, earliest, learned⟩ := Cut.earliest_of_deal dealt
  have nonempty : search.segments ≠ [] := by
    intro empty
    simp [Commitment.deal, empty] at dealt
  refine ⟨blocks, ⟨(fitsWhole_iff nonempty).1 earliest.allowed, ?_⟩, ?_⟩
  · intro other allowed
    exact earliest.least other ((fitsWhole_iff nonempty).2 allowed)
  · rw [← same, ← learned]
    simp [Cut.captures, Cut.learned]

/-- Every match of a search is a cut of its input.  A parameter that must agree has the
text of the nearest segment with its key before it, and the captures have for each
key the text of the last segment with that key. -/
theorem captures?_sound {settings : Settings} {segments : List Segment} {input : Text}
    {captures : Captures} (separated : settings.separator ≠ [])
    (found : (Search.of settings segments input true).captures? = some captures) :
    ∃ blocks, Cut segments (input.pieces settings.separator) blocks ∧
      (∀ place earlier key, segments[place]? = some (.parameter key true) →
        NearestBefore segments key place earlier →
        textAt settings.separator blocks earlier = textAt settings.separator blocks place) ∧
      ∀ key text, captures.get? key = some text ↔
        ∃ place, LastPlace segments key place ∧
          textAt settings.separator blocks place = some text := by
  obtain ⟨blocks, earliest, rfl⟩ := earliest_of_captures? separated rfl found
  obtain ⟨cut, agrees⟩ := earliest.allowed
  have size := Cut.length_of_dealt cut.dealt
  refine ⟨blocks, cut, ?_, ?_⟩
  · intro place earlier key parameter nearest
    exact Cut.textAt_of_agreesAfter size agrees parameter nearest
  · intro key text
    exact Cut.get?_captures_iff size

/-- The wildcard is tried with `a` first; the text `b` that the key has then leaves no
trace. -/
theorem captures?_sound_grown :
    let segments : List Segment := [.literal [], .wildcard ['w'], .parameter ['x'] true,
      .literal "end".toList, .parameter ['x'] true]
    let input : Text := "/a/b/c/end/c".toList
    ['/'] ≠ [] ∧
      (Search.of {} segments input true).captures? =
        some ⟨[(['w'], "a/b".toList), (['x'], ['c'])]⟩ ∧
      ∃ blocks, Cut segments (input.pieces ['/']) blocks ∧
        textAt ['/'] blocks 2 = textAt ['/'] blocks 4 ∧
        ∃ place, LastPlace segments ['x'] place ∧ textAt ['/'] blocks place = some ['c'] := by
  intro segments input
  have found : (Search.of {} segments input true).captures? =
      some ⟨[(['w'], "a/b".toList), (['x'], ['c'])]⟩ := by decide
  obtain ⟨blocks, cut, agrees, captured⟩ := captures?_sound (by decide) found
  have nearest : NearestBefore segments ['x'] 4 2 := by
    refine ⟨by decide, by decide, ?_⟩
    intro between after before
    obtain rfl : between = 3 := by omega
    decide
  exact ⟨by decide, found, blocks, cut, agrees 4 2 ['x'] rfl nearest,
    (captured ['x'] ['c']).1 (by decide)⟩

end PathPattern.Search
