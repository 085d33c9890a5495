import PathPattern.Proofs.Commitment.Completeness
import PathPattern.Proofs.Cut.Earliest
import PathPattern.Proofs.Search.Soundness

namespace PathPattern.Search

open Commitment (Stage spread stages)
open Cut (Earliest LastPlace Steady openingKeys textAt)

variable {search : Search} {captures : Captures} {segments : List Segment}

theorem isSome_captures?_iff (separated : search.separator ≠ [])
    (capturing : search.capturing = true)
    (steady : Steady (openingKeys search.segments) (stages search.segments).2) :
    search.captures?.isSome ↔
      ∃ blocks, AgreeingCut search.separator search.segments search.input blocks := by
  refine ⟨?_, ?_⟩
  · intro found
    obtain ⟨captures, found⟩ := Option.isSome_iff_exists.1 found
    obtain ⟨blocks, earliest, _⟩ := earliest_of_captures? separated capturing found
    exact ⟨blocks, earliest.allowed⟩
  · intro cut
    obtain ⟨blocks, cut⟩ := cut
    have nonempty : search.segments ≠ [] := by
      intro empty
      have dealt := cut.1.dealt
      rw [empty] at dealt
      cases dealt
    rw [captures?_of_capturing separated capturing, Option.isSome_map]
    exact Cut.isSome_deal steady nonempty ((fitsWhole_iff nonempty).2 cut)

theorem captures?_eq_some_iff (separated : search.separator ≠ [])
    (capturing : search.capturing = true)
    (steady : Steady (openingKeys search.segments) (stages search.segments).2) :
    search.captures? = some captures ↔
      ∃ blocks, Earliest search.segments
          (AgreeingCut search.separator search.segments search.input) blocks ∧
        captures = Cut.captures search.separator search.segments blocks := by
  refine ⟨?_, ?_⟩
  · exact earliest_of_captures? separated capturing
  · intro cut
    obtain ⟨blocks, earliest, rfl⟩ := cut
    have someCaptures := (isSome_captures?_iff separated capturing steady).2
      ⟨blocks, earliest.allowed⟩
    obtain ⟨captures, found⟩ := Option.isSome_iff_exists.1 someCaptures
    obtain ⟨other, earliestOther, rfl⟩ := earliest_of_captures? separated capturing found
    rw [found, earliest.unique earliestOther fun blocks cut => cut.1]

/-- If the cuts that agree are the cuts that are allowed, a search is exact about these.  The
earliest one gives each key the text of its last place. -/
theorem exact_of_steady (search : Search) {Allowed : List (List Text) → Prop}
    (separated : search.separator ≠ []) (capturing : search.capturing = true)
    (steady : Steady (openingKeys search.segments) (stages search.segments).2)
    (same : ∀ blocks, AgreeingCut search.separator search.segments search.input blocks ↔
      Allowed blocks) :
    (search.captures?.isSome ↔ ∃ blocks, Allowed blocks) ∧
      (∀ captures, search.captures? = some captures ↔
        ∃ blocks, Earliest search.segments Allowed blocks ∧
          captures = Cut.captures search.separator search.segments blocks) ∧
      ∀ captures, search.captures? = some captures →
        ∃ blocks, Earliest search.segments Allowed blocks ∧
          ∀ key text, captures.get? key = some text ↔
            ∃ place, LastPlace search.segments key place ∧
              textAt search.separator blocks place = some text := by
  refine ⟨?_, ?_, ?_⟩
  · rw [isSome_captures?_iff separated capturing steady]
    exact exists_congr same
  · intro captures
    rw [captures?_eq_some_iff separated capturing steady]
    exact exists_congr fun blocks => and_congr_left fun _ => Cut.earliest_congr same
  · intro captures found
    obtain ⟨blocks, earliest, rfl⟩ := earliest_of_captures? separated capturing found
    have size := Cut.length_of_dealt earliest.allowed.1.dealt
    refine ⟨blocks, (Cut.earliest_congr same).1 earliest, ?_⟩
    intro key text
    exact Cut.get?_captures_iff size

/-- No parameter of the segments must agree. -/
def Unchecked (segments : List Segment) : Prop :=
  ∀ key mustAgree, .parameter key mustAgree ∈ segments → mustAgree = false

theorem steady_of_unchecked {pinned : List Text} {stages : List Stage}
    (unchecked : Unchecked (spread stages)) : Steady pinned stages := by
  induction stages with
  | nil => trivial
  | cons stage rest ih =>
      have none (key : Text) : Segment.parameter key true ∉ spread (stage :: rest) := by
        intro member
        have absurdity := unchecked key true member
        contradiction
      refine ⟨?_, ?_, ih ?_⟩
      · intro member
        exact none stage.key (by simp [spread, member])
      · intro key member
        exact absurd (by simp [spread, member]) (none key)
      · intro key mustAgree member
        exact unchecked key mustAgree (by simp [spread, member])

theorem steady_of_unchecked_segments (unchecked : Unchecked segments) :
    Steady (openingKeys segments) (stages segments).2 := by
  apply steady_of_unchecked
  intro key mustAgree member
  apply unchecked key mustAgree
  rw [← Commitment.spread_stages segments]
  exact List.mem_append_right _ member

theorem agrees_of_unchecked {separator : Text} {bound : Commitment.Bound}
    {blocks : List (List Text)} (unchecked : Unchecked segments) :
    Cut.AgreesAfter separator bound segments blocks := by
  induction segments generalizing bound blocks with
  | nil => simp [Cut.AgreesAfter]
  | cons segment rest ih =>
      cases blocks with
      | nil => simp [Cut.AgreesAfter]
      | cons block blocks =>
          refine Cut.agreesAfter_cons.2 ⟨?_, ih ?_⟩
          · intro key parameter
            have absurdity := unchecked key true (by simp [parameter])
            contradiction
          · intro key mustAgree member
            exact unchecked key mustAgree (List.mem_cons_of_mem _ member)

/-- Without agreement, a search matches just if its input has a cut, and captures the
earliest one: each key has the text of its last place, and no other key has one. -/
theorem captures?_exact (settings : Settings) (segments : List Segment) (input : Text)
    (separated : settings.separator ≠ []) (unchecked : Unchecked segments) :
    let found := (Search.of settings segments input true).captures?
    let pieces := input.pieces settings.separator
    (found.isSome ↔ ∃ blocks, Cut segments pieces blocks) ∧
      (∀ captures, found = some captures ↔
        ∃ blocks, Earliest segments (Cut segments pieces) blocks ∧
          captures = Cut.captures settings.separator segments blocks) ∧
      ∀ captures, found = some captures →
        ∃ blocks, Earliest segments (Cut segments pieces) blocks ∧
          ∀ key text, captures.get? key = some text ↔
            ∃ place, LastPlace segments key place ∧
              textAt settings.separator blocks place = some text := by
  intro found pieces
  exact exact_of_steady (.of settings segments input true) separated rfl
    (steady_of_unchecked_segments unchecked)
    fun blocks => and_iff_left (agrees_of_unchecked unchecked)

/-- Either `a` could end the first wildcard, and the nearer one does.  The key of the wildcard
comes back at the end with another text, which is the one that is captured. -/
theorem captures?_exact_twice :
    let segments : List Segment := [.literal [], .wildcard ['v'], .literal ['a'], .wildcard ['w'],
      .parameter ['v'] false]
    let input : Text := "/x/a/y/a/z/b".toList
    let farther : List (List Text) :=
      [[[]], [['x'], ['a'], ['y']], [['a']], [['z']], [['b']]]
    let captured : Captures := ⟨[(['v'], ['b']), (['w'], "y/a/z".toList)]⟩
    ['/'] ≠ [] ∧ Unchecked segments ∧ Cut segments (input.pieces ['/']) farther ∧
      (Search.of {} segments input true).captures?.isSome ∧
      (Search.of {} segments input true).captures? = some captured ∧
      ∃ blocks, Earliest segments (Cut segments (input.pieces ['/'])) blocks ∧
        captured = Cut.captures ['/'] segments blocks ∧
        ∃ place, LastPlace segments ['v'] place ∧ textAt ['/'] blocks place = some ['b'] := by
  intro segments input farther captured
  have separated : Settings.separator {} ≠ [] := by decide
  have unchecked : Unchecked segments := by
    simp [Unchecked, segments]
  obtain ⟨matched, exactly, looked⟩ := captures?_exact {} segments input separated unchecked
  have cut : Cut segments (input.pieces ['/']) farther := by decide
  have found : (Search.of {} segments input true).captures? = some captured := by decide
  obtain ⟨blocks, earliest, same⟩ := (exactly captured).1 found
  obtain ⟨others, earliestToo, texts⟩ := looked captured found
  obtain rfl := earliest.unique earliestToo fun blocks allowed => allowed
  exact ⟨separated, unchecked, cut, matched.2 ⟨farther, cut⟩, found, blocks, earliest, same,
    (texts ['v'] ['b']).1 (by decide)⟩

end PathPattern.Search
