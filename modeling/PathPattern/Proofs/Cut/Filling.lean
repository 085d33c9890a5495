import PathPattern.Proofs.Cut.Uniform
import PathPattern.Proofs.Text.Extent
import PathPattern.Segment.Filling

namespace PathPattern.Cut

open Segment (Apart WildcardsDiffer)

variable {separator key text : Text} {segment : Segment} {segments : List Segment}
  {block pieces : List Text} {blocks : List (List Text)} {texts : Text → Option Text}
  {place first second : Nat}

theorem intercalate_blockText (separator : Text) (nonempty : ∀ block ∈ blocks, block ≠ []) :
    separator.intercalate (blocks.map (blockText separator)) =
      separator.intercalate blocks.flatten := by
  induction blocks with
  | nil => rfl
  | cons block blocks ih =>
      obtain ⟨someBlock, someBlocks⟩ := List.forall_mem_cons.1 nonempty
      cases blocks with
      | nil => simp [blockText]
      | cons next blocks =>
          have more : (next :: blocks).flatten ≠ [] := by
            simp [someBlocks next List.mem_cons_self]
          calc
            separator.intercalate ((block :: next :: blocks).map (blockText separator)) =
                blockText separator block ++ separator ++
                  separator.intercalate ((next :: blocks).map (blockText separator)) := by
              rw [List.map_cons, List.intercalate_cons_of_ne_nil (by simp)]
            _ = separator.intercalate block ++ separator ++
                  separator.intercalate (next :: blocks).flatten := by
              rw [ih someBlocks, blockText]
            _ = separator.intercalate (block ++ (next :: blocks).flatten) :=
              (Text.intercalate_append separator someBlock more).symm

theorem ne_nil_of_suits {last : Bool} (suits : segment.Suits last block) : block ≠ [] := by
  rintro rfl
  cases segment with
  | literal text => exact absurd suits (by simp [Segment.Suits])
  | parameter key mustAgree => exact suits
  | wildcard key => exact suits rfl

theorem ne_nil_of_dealt (dealt : Dealt segments blocks) : ∀ block ∈ blocks, block ≠ [] := by
  induction dealt with
  | last suits => simpa using ne_nil_of_suits suits
  | cons suits _ ih => exact List.forall_mem_cons.2 ⟨ne_nil_of_suits suits, ih⟩

theorem fill?_of_suits {last : Bool} (suits : segment.Suits last block)
    (own : ∀ key, segment.key? = some key → texts key = some (blockText separator block)) :
    segment.fill? texts = some (blockText separator block) := by
  cases segment with
  | literal text => simp [Segment.fill?, blockText, show block = [text] from suits]
  | parameter key mustAgree => exact own key rfl
  | wildcard key => exact own key rfl

theorem mapM_fill?_of_dealt (dealt : Dealt segments blocks)
    (own : ∀ place key, keyAt segments place = some key →
      texts key = textAt separator blocks place) :
    segments.mapM (Segment.fill? texts) = some (blocks.map (blockText separator)) := by
  induction dealt with
  | last suits =>
      simp [fill?_of_suits suits fun key here => own 0 key here]
  | cons suits _ ih =>
      have first := fill?_of_suits suits fun key here => own 0 key here
      have rest := ih fun place key here => own (place + 1) key here
      rw [List.mapM_cons, first, rest]
      rfl

/-- Segments with one key have one text. -/
def Coherent (separator : Text) (segments : List Segment) (blocks : List (List Text)) : Prop :=
  ∀ key first second, keyAt segments first = some key → keyAt segments second = some key →
    textAt separator blocks first = textAt separator blocks second

theorem get?_captures_of_coherent (size : segments.length = blocks.length)
    (coherent : Coherent separator segments blocks) (here : keyAt segments place = some key) :
    (captures separator segments blocks).get? key = textAt separator blocks place := by
  obtain ⟨last, lastPlace⟩ := exists_lastPlace here
  obtain ⟨segment, found, _⟩ := Option.bind_eq_some_iff.1 lastPlace.here
  have within : last < blocks.length := size ▸ (List.getElem?_eq_some_iff.1 found).1
  have textHere : textAt separator blocks last = some (blockText separator blocks[last]) := by
    simp [textAt, within]
  rw [(get?_captures_iff size).2 ⟨last, lastPlace, textHere⟩, ← textHere]
  exact coherent key last place lastPlace.here here

/-- Filled with its captures, the segments of a cut are the input again. -/
theorem fillAll?_captures {input : Text}
    (cut : Cut segments (input.pieces separator) blocks)
    (coherent : Coherent separator segments blocks) :
    Segment.fillAll? separator (captures separator segments blocks).get? segments =
      some input := by
  have filled := mapM_fill?_of_dealt cut.dealt fun place key here =>
    get?_captures_of_coherent (length_of_dealt cut.dealt) coherent here
  rw [Segment.fillAll?, filled, Option.map_some,
    intercalate_blockText separator (ne_nil_of_dealt cut.dealt), cut.whole,
    Text.intercalate_pieces]

theorem keyAt_eq_some_iff :
    keyAt segments place = some key ↔
      (∃ mustAgree, segments[place]? = some (.parameter key mustAgree)) ∨
        segments[place]? = some (.wildcard key) := by
  rw [keyAt]
  rcases segments[place]? with _ | _ | _ | _ <;> simp [Segment.key?]

theorem coherent_of_uniform (uniform : Uniform separator segments blocks)
    (apart : Apart segments) (differ : WildcardsDiffer segments) :
    Coherent separator segments blocks := by
  intro key first second here there
  rcases keyAt_eq_some_iff.1 here with ⟨mustAgree, parameter⟩ | wild
  · rcases keyAt_eq_some_iff.1 there with ⟨alike, other⟩ | wildThere
    · exact uniform key first second mustAgree alike parameter other
    · exact absurd (List.mem_of_getElem? wildThere)
        (apart key mustAgree (List.mem_of_getElem? parameter))
  · rcases keyAt_eq_some_iff.1 there with ⟨alike, other⟩ | wildThere
    · exact absurd (List.mem_of_getElem? wild) (apart key alike (List.mem_of_getElem? other))
    · rw [differ key first second wild wildThere]

theorem not_keyAt_of_nodup (distinct : (segments.filterMap Segment.key?).Nodup)
    (before : first < second) (here : keyAt segments first = some key) :
    keyAt segments second ≠ some key := by
  intro there
  obtain ⟨segment, found, own⟩ := Option.bind_eq_some_iff.1 here
  obtain ⟨other, foundOther, ownOther⟩ := Option.bind_eq_some_iff.1 there
  obtain ⟨within, rfl⟩ := List.getElem?_eq_some_iff.1 found
  obtain ⟨withinOther, rfl⟩ := List.getElem?_eq_some_iff.1 foundOther
  have differ := List.pairwise_iff_getElem.1 (List.pairwise_filterMap.1 distinct) first second
    within withinOther before
  exact differ key own key ownOther rfl

theorem coherent_of_nodup (distinct : (segments.filterMap Segment.key?).Nodup) :
    Coherent separator segments blocks := by
  intro key first second here there
  rcases Nat.lt_trichotomy first second with before | rfl | behind
  · exact absurd there (not_keyAt_of_nodup distinct before here)
  · rfl
  · exact absurd here (not_keyAt_of_nodup distinct behind there)

end PathPattern.Cut
