import PathPattern.Cut
import PathPattern.Proofs.Search.Standing

namespace PathPattern

namespace Text

variable {separator : Text} {blocks : List (List Text)} {left : List Text}

/-- The texts of blocks, each followed by a separator. -/
def followed (separator : Text) : List (List Text) → Text
  | [] => []
  | block :: rest => Cut.blockText separator block ++ separator ++ followed separator rest

theorem byteSize_followed (nonempty : ∀ block ∈ blocks, block ≠ []) :
    byteSize (followed separator blocks) = extent separator blocks.flatten := by
  induction blocks with
  | nil => rfl
  | cons block rest ih =>
      obtain ⟨here, behind⟩ := List.forall_mem_cons.1 nonempty
      rw [followed, byteSize_append, byteSize_append, Cut.blockText,
        byteSize_intercalate separator here, ih behind, List.flatten_cons, extent_append]

theorem followed_append_intercalate (nonempty : ∀ block ∈ blocks, block ≠ [])
    (more : left ≠ []) :
    followed separator blocks ++ separator.intercalate left =
      separator.intercalate (blocks.flatten ++ left) := by
  induction blocks with
  | nil => rfl
  | cons block rest ih =>
      obtain ⟨here, behind⟩ := List.forall_mem_cons.1 nonempty
      rw [followed, List.append_assoc, ih behind, List.flatten_cons, List.append_assoc block,
        intercalate_append separator here (by simp [more])]
      rfl

end Text

namespace Cut

/-- The keys of the segments with the spans of their blocks, in order, if the first block
starts at an offset and a separator stands behind each one. -/
def spans (separator : Text) : Nat → List Segment → List (List Text) → List (Text × Span)
  | start, segment :: segments, block :: blocks =>
      let stop := start + (blockText separator block).byteSize
      let rest := spans separator (stop + separator.byteSize) segments blocks
      match segment.key? with
      | some key => (key, ⟨start, stop⟩) :: rest
      | none => rest
  | _, _, _ => []

theorem spans_concat {segments : List Segment} {blocks : List (List Text)} (separator : Text)
    (start : Nat) (size : segments.length = blocks.length) (segment : Segment)
    (block : List Text) :
    spans separator start (segments ++ [segment]) (blocks ++ [block]) =
      spans separator start segments blocks ++
        spans separator (start + (Text.followed separator blocks).byteSize) [segment]
          [block] := by
  induction segments generalizing blocks start with
  | nil =>
      obtain rfl := List.eq_nil_of_length_eq_zero size.symm
      rfl
  | cons first segments ih =>
      cases blocks with
      | nil => simp at size
      | cons taken blocks =>
          have moved : start + (blockText separator taken).byteSize + separator.byteSize +
              (Text.followed separator blocks).byteSize =
                start + (Text.followed separator (taken :: blocks)).byteSize := by
            simp only [Text.followed, Text.byteSize_append]
            omega
          simp only [List.cons_append, spans, ih _ (Nat.succ.inj size), moved]
          cases first.key? <;> rfl

end Cut

namespace Trail

variable {trail : Trail}

def blocks : Trail → List (List Text)
  | [] => []
  | (_, block) :: past => blocks past ++ [block]

theorem length_blocks (trail : Trail) : trail.blocks.length = trail.length := by
  induction trail with
  | nil => rfl
  | cons entry past ih => simp [blocks, ih]

theorem flatten_blocks (trail : Trail) : trail.blocks.flatten = trail.pieces := by
  induction trail with
  | nil => rfl
  | cons entry past ih => simp [blocks, pieces, ih]

theorem zip_segments_blocks (trail : Trail) :
    trail.segments.zip trail.blocks = trail.reverse := by
  induction trail with
  | nil => rfl
  | cons entry past ih =>
      obtain ⟨segment, block⟩ := entry
      have size : (segments past).length = (blocks past).length := by
        rw [length_segments, length_blocks]
      simp [segments, blocks, List.zip_append size, ih]

theorem blocks_append (run past : Trail) :
    Trail.blocks (run ++ past) = past.blocks ++ run.blocks := by
  induction run with
  | nil => simp [blocks]
  | cons entry run ih => simp [blocks, ih]

theorem mem_blocks {block : List Text} (member : block ∈ trail.blocks) :
    ∃ entry ∈ trail, entry.2 = block := by
  induction trail with
  | nil => simp [blocks] at member
  | cons entry past ih =>
      rcases List.mem_append.1 member with earlier | own
      · obtain ⟨found, foundMember, same⟩ := ih earlier
        exact ⟨found, List.mem_cons_of_mem _ foundMember, same⟩
      · exact ⟨entry, List.mem_cons_self, (List.mem_singleton.1 own).symm⟩

/-- Every segment of a trail took a block that suits it. -/
def Suited (trail : Trail) : Prop := ∀ entry ∈ trail, entry.1.Suits false entry.2

end Trail

namespace Search

variable {search : Search} {trail : Trail} {taken left rest : List Text} {piece : Text}
  {segment next : Segment} {ahead : List Segment} {state : State}

theorem fallBack_ne_advance (before after : State) : fallBack before ≠ .advance after := by
  unfold fallBack
  split <;> simp

theorem suits_of_accepts {bound : Commitment.Bound}
    (accepted : Commitment.accepts bound false piece segment = true) :
    segment.Suits false [piece] := by
  cases segment with
  | literal text =>
      simp only [Commitment.accepts, beq_iff_eq] at accepted
      simp only [Segment.Suits, accepted]
  | parameter key mustAgree =>
      simp only [Commitment.accepts, Bool.false_or, Bool.and_eq_true, bne_iff_ne] at accepted
      exact .inr accepted.1
  | wildcard key => simp [Commitment.accepts] at accepted

/-- A segment that a search goes on behind has taken a block that suits it. -/
theorem Standing.suits_of_advance
    (standing : Standing search trail taken segment (next :: ahead) (piece :: rest))
    (step : search.step (search.stateAfter trail taken) = .advance state) :
    segment.Suits false (taken ++ [piece]) := by
  cases wild : segment.isWildcard with
  | true =>
      cases segment with
      | wildcard key => simp [Segment.Suits]
      | _ => simp [Segment.isWildcard] at wild
  | false =>
      obtain rfl := standing.fresh (.inl wild)
      rw [step_eq standing.progress (.inl wild),
        standing.progress.covers.accepts_eq wild] at step
      simp only [List.nil_append, List.intercalate_singleton, List.isEmpty_cons] at step ⊢
      split at step
      · simp at step
      · split at step
        · next taken => exact suits_of_accepts (Bool.and_eq_true_iff.1 taken).1
        · exact absurd step (fallBack_ne_advance _ _)

/-- At every state, a search stands behind segments that took blocks which suit them. -/
theorem exists_suited_of_reaches (separated : search.separator ≠ [])
    (nonempty : search.segments ≠ []) (reaches : search.Reaches state) :
    ∃ trail taken segment ahead left, Standing search trail taken segment ahead left ∧
      trail.Suited ∧ state = search.stateAfter trail taken := by
  refine exists_standing_keeping Trail.Suited (by simp [Trail.Suited]) ?_ ?_ separated nonempty
    reaches
  · intro trail taken segment next ahead piece rest after standing step suited
    exact List.forall_mem_cons.2 ⟨standing.suits_of_advance step, suited⟩
  · intro run past suited entry member
    exact suited entry (List.mem_append_right _ member)

theorem Covers.nonempty_blocks (covers : Covers search trail) :
    ∀ block ∈ trail.blocks, block ≠ [] := by
  intro block member
  obtain ⟨entry, entryMember, rfl⟩ := Trail.mem_blocks member
  exact covers.nonempty entry entryMember

theorem Covers.offsetAfter_eq (covers : Covers search trail) :
    search.offsetAfter trail = (Text.followed search.separator trail.blocks).byteSize := by
  rw [offsetAfter, ← trail.flatten_blocks, Text.byteSize_followed covers.nonempty_blocks]

/-- The bindings are the spans of the blocks, none left out and none from a block that was
given up. -/
theorem Covers.entries_bindingsAfter (covers : Covers search trail) :
    (search.bindingsAfter trail).entries =
      if search.initial.bindings.enabled then
        Cut.spans search.separator 0 trail.segments trail.blocks
      else [] := by
  induction trail with
  | nil => simp [bindingsAfter, initial, Trail.segments, Cut.spans]
  | cons entry past ih =>
      obtain ⟨segment, block⟩ := entry
      have before := ih covers.of_cons
      have size : (Trail.segments past).length = (Trail.blocks past).length := by
        rw [Trail.length_segments, Trail.length_blocks]
      simp only [bindingsAfter, Segment.record, Trail.segments, Trail.blocks,
        Cut.spans_concat _ _ size, Nat.zero_add, ← covers.of_cons.offsetAfter_eq, Cut.spans]
      cases segment.key? with
      | none => simpa using before
      | some key =>
          simp only [Bindings.bind, bindingsAfter_enabled]
          split
          · next enabled =>
            rw [before, if_pos enabled]
            rfl
          · next disabled => simpa only [if_neg disabled] using before

theorem size_bindingsAfter (search : Search) (trail : Trail) :
    (search.bindingsAfter trail).size =
      if search.initial.bindings.enabled then
        trail.segments.countP fun segment => !segment.isLiteral
      else 0 := by
  have keyed (segment : Segment) : segment.key?.isSome = !segment.isLiteral := by
    cases segment <;> rfl
  have count := congrArg List.length (search.keys_bindingsAfter trail)
  rw [List.length_map] at count
  rw [Bindings.size, count]
  split
  · rw [List.length_filterMap_eq_countP]
    simp only [keyed]
  · rfl

end Search

end PathPattern
