import PathPattern.Cut

namespace PathPattern.Cut

variable {segment : Segment} {segments : List Segment} {pieces block : List Text}
  {blocks other : List (List Text)} {Allowed Permitted : List (List Text) → Prop}

theorem length_of_suits {last : Bool} (plain : segment.isWildcard = false)
    (suits : segment.Suits last block) : block.length = 1 := by
  cases segment with
  | literal text => simp [show block = [text] from suits]
  | wildcard key => simp [Segment.isWildcard] at plain
  | parameter key mustAgree =>
      rcases block with _ | ⟨piece, _ | ⟨next, more⟩⟩
      · exact suits.elim
      · rfl
      · exact suits.elim

theorem length_eq_of_suits {last : Bool} {otherBlock : List Text}
    (suits : segment.Suits last block) (suitsOther : segment.Suits last otherBlock)
    (same : lengths (segment :: segments) (block :: blocks) =
      lengths (segment :: segments) (otherBlock :: other)) :
    block.length = otherBlock.length ∧ lengths segments blocks = lengths segments other := by
  cases wild : segment.isWildcard with
  | false =>
      simp only [lengths, wild, Bool.false_eq_true, if_false] at same
      exact ⟨by rw [length_of_suits wild suits, length_of_suits wild suitsOther], same⟩
  | true =>
      simp only [lengths, wild, if_true, List.cons.injEq] at same
      exact same

/-- The lengths of the wildcards determine a cut, since any other segment has one piece. -/
theorem eq_of_lengths_eq (dealt : Dealt segments blocks) (dealtOther : Dealt segments other)
    (whole : blocks.flatten = other.flatten)
    (same : lengths segments blocks = lengths segments other) : blocks = other := by
  induction dealt generalizing other with
  | last suits =>
      cases dealtOther with
      | last suitsOther => simpa using whole
  | cons suits dealt ih =>
      cases dealtOther with
      | cons suitsOther dealtOther =>
          obtain ⟨size, sameRest⟩ := length_eq_of_suits suits suitsOther same
          rw [List.flatten_cons, List.flatten_cons] at whole
          obtain ⟨rfl, wholeRest⟩ := List.append_inj whole size
          rw [ih dealtOther wholeRest sameRest]

theorem Earliest.unique (earliest : Earliest segments Allowed blocks)
    (earliestOther : Earliest segments Allowed other)
    (cuts : ∀ blocks, Allowed blocks → Cut segments pieces blocks) : blocks = other := by
  have cut := cuts blocks earliest.allowed
  have cutOther := cuts other earliestOther.allowed
  exact eq_of_lengths_eq cut.dealt cutOther.dealt (cut.whole.trans cutOther.whole.symm)
    (List.le_antisymm (earliest.least other earliestOther.allowed)
      (earliestOther.least blocks earliest.allowed))

theorem earliest_congr (same : ∀ blocks, Allowed blocks ↔ Permitted blocks) :
    Earliest segments Allowed blocks ↔ Earliest segments Permitted blocks := by
  have equal : Allowed = Permitted := funext fun blocks => propext (same blocks)
  rw [equal]

end PathPattern.Cut
