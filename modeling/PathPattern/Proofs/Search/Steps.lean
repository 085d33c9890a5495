import PathPattern.Proofs.Search.Trail

namespace PathPattern.Search

variable {search : Search} {trail : Trail} {taken block left : List Text} {ahead : List Segment}
  {segment next : Segment} {key piece : Text}

/-- The segments and the pieces of a search are divided between its trail, the block
`taken` by the segment at hand, and what is ahead.  Some piece is left. -/
structure Progress (search : Search) (trail : Trail) (taken : List Text)
    (ahead : List Segment) (left : List Text) : Prop where
  separated : search.separator ≠ []
  nonempty : ∀ entry ∈ trail, entry.2 ≠ []
  segments : trail.segments ++ ahead = search.segments
  pieces : trail.pieces ++ taken ++ left = search.input.pieces search.separator
  more : left ≠ []

namespace Progress

theorem initial (separated : search.separator ≠ []) :
    Progress search [] [] search.segments (search.input.pieces search.separator) where
  separated := separated
  nonempty := by simp
  segments := rfl
  pieces := rfl
  more := Text.pieces_ne_nil _ _

theorem covers (progress : Progress search trail taken ahead left) : Covers search trail where
  separated := progress.separated
  nonempty := progress.nonempty
  pieces := ⟨taken ++ left, by rw [← progress.pieces, List.append_assoc]⟩

theorem covers_cons {rest : List Text}
    (progress : Progress search trail taken (segment :: ahead) left)
    (divided : left = block ++ rest) (nonempty : block ≠ []) :
    Covers search ((segment, taken ++ block) :: trail) where
  separated := progress.separated
  nonempty entry member := by
    rcases List.mem_cons.1 member with rfl | earlier
    · simp [nonempty]
    · exact progress.nonempty entry earlier
  pieces := ⟨rest, by simp [← progress.pieces, divided, Trail.pieces]⟩

theorem advance (progress : Progress search trail taken (segment :: ahead) (piece :: left))
    (more : left ≠ []) :
    Progress search ((segment, taken ++ [piece]) :: trail) [] ahead left where
  separated := progress.separated
  nonempty := (progress.covers_cons (show piece :: left = [piece] ++ left from rfl)
    (by simp)).nonempty
  segments := by simp [← progress.segments, Trail.segments]
  pieces := by simp [← progress.pieces, Trail.pieces]
  more := more

theorem extend (progress : Progress search trail taken ahead (piece :: left))
    (more : left ≠ []) : Progress search trail (taken ++ [piece]) ahead left where
  separated := progress.separated
  nonempty := progress.nonempty
  segments := progress.segments
  pieces := by simp [← progress.pieces]
  more := more

theorem segment_at (progress : Progress search trail taken (segment :: ahead) left) :
    search.segments[(search.stateAfter trail taken).index]? = some segment := by
  simp [← progress.segments, stateAfter, ← Trail.length_segments]

theorem atLast_eq (progress : Progress search trail taken (segment :: ahead) left) :
    search.atLast (search.stateAfter trail taken) = ahead.isEmpty := by
  have count := congrArg List.length progress.segments
  simp only [List.length_append, List.length_cons, Trail.length_segments] at count
  simp only [atLast, stateAfter, ← count]
  cases ahead <;> simp

theorem boundary_eq (progress : Progress search trail taken (segment :: ahead) (piece :: left))
    (inner : segment.isWildcard = false ∨ ahead ≠ []) :
    search.boundary? (search.stateAfter trail taken) segment =
      some ⟨(search.spanAfter trail (taken ++ [piece])).stop, left.isEmpty⟩ := by
  have whole := progress.pieces.symm
  rw [List.append_assoc] at whole
  have notTerminal : ¬ (segment.isWildcard && ahead.isEmpty) = true := by
    rcases inner with plain | more
    · simp [plain]
    · simp [more]
  simp only [boundary?, progress.atLast_eq, if_neg notTerminal]
  exact Text.find?_boundary_concat progress.separated whole

/-- The pieces that are left end with the input. -/
theorem byteSize_eq (progress : Progress search trail taken ahead left) :
    search.input.byteSize = (search.spanAfter trail (taken ++ left)).stop := by
  have whole := progress.pieces.symm
  rw [List.append_assoc] at whole
  exact Text.byteSize_of_pieces (by simp [progress.more]) whole

theorem read_eq (progress : Progress search trail taken (segment :: ahead) (piece :: left)) :
    (search.spanAfter trail (taken ++ [piece])).read? search.input =
      some (search.separator.intercalate (taken ++ [piece])) :=
  (progress.covers_cons (show piece :: left = [piece] ++ left from rfl) (by simp)).read?_spanAfter

end Progress

theorem Covers.accepts_eq {last : Bool} {value : Text} (covers : Covers search trail)
    (plain : segment.isWildcard = false) :
    segment.accepts (search.bindingsAfter trail) search.input value last =
      Commitment.accepts (search.boundAfter trail) last value segment := by
  cases segment with
  | literal text => rfl
  | parameter key mustAgree =>
      have sameTest : (value != []) = !value.isEmpty := by cases value <;> rfl
      simp only [Segment.accepts, Commitment.accepts, covers.reads.text?, sameTest]
  | wildcard key => simp [Segment.isWildcard] at plain

/-- The state that falling back leads to. -/
def resumed? (state : State) : Option State :=
  match fallBack state with
  | .grow _ resumed => some resumed
  | _ => none

theorem fallBack_of_none {state : State} (stuck : resumed? state = none) :
    fallBack state = .stop .failed := by
  cases found : state.fallback with
  | none => simp only [fallBack, found]
  | some place => simp [resumed?, fallBack, found] at stuck

theorem fallBack_of_some {state resumed : State} (back : resumed? state = some resumed) :
    ∃ growth, fallBack state = .grow growth resumed := by
  unfold resumed? at back
  split at back
  · next growth other falls =>
    obtain rfl := Option.some.inj back
    exact ⟨growth, falls⟩
  · cases back

theorem resumed?_plain (block : List Text) (plain : segment.isWildcard = false) :
    resumed? (search.stateAfter ((segment, block) :: trail) []) =
      resumed? (search.stateAfter trail []) := by
  simp only [resumed?, fallBack, stateAfter, fallbackAfter, plain, List.isEmpty_nil, if_true,
    Bool.false_eq_true, if_false]
  cases found : search.fallbackAfter trail with
  | none => rfl
  | some place => simp only [keep_bindingsAfter segment block (bound_le_size found)]

theorem resumed?_wildcard (key : Text) (nonempty : block ≠ []) :
    resumed? (search.stateAfter ((.wildcard key, block) :: trail) []) =
      some (search.stateAfter trail block) := by
  have kept : (search.bindingsAfter ((.wildcard key, block) :: trail)).keep
      (search.bindingsAfter trail).size = search.bindingsAfter trail := by
    rw [keep_bindingsAfter _ _ (Nat.le_refl _), Bindings.keep_of_size_le (Nat.le_refl _)]
  simp [resumed?, fallBack, stateAfter, fallbackAfter, Segment.isWildcard, placeAfter, nonempty,
    kept]

theorem takeRun_eq (progress : Progress search trail taken (segment :: ahead) left)
    (fresh : segment.isWildcard = false → taken = []) (nonempty : block ≠ []) :
    search.takeRun (search.stateAfter trail taken) segment (search.spanAfter trail block).stop =
      if ahead.isEmpty then
        .stop (.matched (search.bindingsAfter ((segment, block) :: trail)))
      else .advance (search.stateAfter ((segment, block) :: trail) []) := by
  have size := Text.byteSize_intercalate search.separator nonempty
  have offset : (search.spanAfter trail block).stop + search.separator.byteSize =
      search.offsetAfter ((segment, block) :: trail) := by
    simp only [spanAfter, offsetAfter, Trail.pieces, Text.extent_append, ← size, Nat.add_assoc]
  have reach : search.offsetAfter ((segment, block) :: trail) - search.offsetAfter trail =
      Text.extent search.separator block := by
    simp only [offsetAfter, Trail.pieces, Text.extent_append, Nat.add_sub_cancel_left]
  simp only [takeRun, progress.atLast_eq, offset]
  split
  · rfl
  · simp only [Step.advance.injEq]
    cases wild : segment.isWildcard with
    | true => simp [stateAfter, fallbackAfter, wild, placeAfter, reach, bindingsAfter, spanAfter]
    | false =>
        simp [stateAfter, fallbackAfter, wild, fresh wild, bindingsAfter, spanAfter]

theorem step_of_offered {state : State} {boundary : Boundary} {value : Text}
    (here : search.segments[state.index]? = some segment)
    (found : search.boundary? state segment = some boundary)
    (read : Span.read? ⟨state.offset, boundary.stop⟩ search.input = some value) :
    search.step state =
      if boundary.atEnd && !search.atLast state then .stop .failed
      else if segment.accepts state.bindings search.input value (search.atLast state) &&
          boundary.atEnd == search.atLast state then
        search.takeRun state segment boundary.stop
      else fallBack state := by
  simp only [step, here, found, read]

theorem step_eq (progress : Progress search trail taken (segment :: ahead) (piece :: left))
    (inner : segment.isWildcard = false ∨ ahead ≠ []) :
    search.step (search.stateAfter trail taken) =
      if left.isEmpty && !ahead.isEmpty then .stop .failed
      else if segment.accepts (search.bindingsAfter trail) search.input
          (search.separator.intercalate (taken ++ [piece])) ahead.isEmpty &&
            left.isEmpty == ahead.isEmpty then
        search.takeRun (search.stateAfter trail taken) segment
          (search.spanAfter trail (taken ++ [piece])).stop
      else fallBack (search.stateAfter trail taken) := by
  rw [step_of_offered progress.segment_at (progress.boundary_eq inner) progress.read_eq,
    progress.atLast_eq]
  rfl

theorem step_exhausted
    (progress : Progress search trail taken (segment :: next :: ahead) [piece]) :
    search.step (search.stateAfter trail taken) = .stop .failed := by
  rw [step_eq progress (.inr (by simp))]
  rfl

theorem step_wildcard
    (progress : Progress search trail taken (.wildcard key :: next :: ahead) (piece :: left))
    (more : left ≠ []) :
    search.step (search.stateAfter trail taken) =
      .advance (search.stateAfter ((.wildcard key, taken ++ [piece]) :: trail) []) := by
  rw [step_eq progress (.inr (by simp)),
    takeRun_eq progress (by simp [Segment.isWildcard]) (by simp)]
  simp [Segment.accepts, more]

theorem step_terminal (progress : Progress search trail [] [.wildcard key] left) :
    search.step (search.stateAfter trail []) =
      .stop (.matched (search.bindingsAfter ((.wildcard key, left) :: trail))) := by
  have covers := progress.covers_cons (List.append_nil left).symm progress.more
  have stop : search.input.byteSize = (search.spanAfter trail left).stop := progress.byteSize_eq
  have read : Span.read? ⟨(search.stateAfter trail []).offset,
      (search.spanAfter trail left).stop⟩ search.input =
        some (search.separator.intercalate left) := covers.read?_spanAfter
  simp only [step, progress.segment_at, boundary?, progress.atLast_eq, Segment.isWildcard,
    List.isEmpty_nil, Bool.and_self, if_true, stop, read,
    takeRun_eq progress (by simp [Segment.isWildcard]) progress.more]
  simp [Segment.accepts]

theorem step_taken
    (progress : Progress search trail [] (segment :: next :: ahead) (piece :: left))
    (plain : segment.isWildcard = false) (more : left ≠ [])
    (accepted : Commitment.accepts (search.boundAfter trail) false piece segment = true) :
    search.step (search.stateAfter trail []) =
      .advance (search.stateAfter ((segment, [piece]) :: trail) []) := by
  rw [step_eq progress (.inl plain), takeRun_eq progress (fun _ => rfl) (by simp)]
  simp [progress.covers.accepts_eq plain, accepted, more]

theorem step_last (progress : Progress search trail [] [segment] [piece])
    (plain : segment.isWildcard = false)
    (accepted : Commitment.accepts (search.boundAfter trail) true piece segment = true) :
    search.step (search.stateAfter trail []) =
      .stop (.matched (search.bindingsAfter ((segment, [piece]) :: trail))) := by
  rw [step_eq progress (.inl plain), takeRun_eq progress (fun _ => rfl) (by simp)]
  simp [progress.covers.accepts_eq plain, accepted]

/-- A segment refuses a piece if it does not accept it, and the last segment also if
more pieces follow. -/
theorem step_refused (progress : Progress search trail [] (segment :: ahead) (piece :: left))
    (plain : segment.isWildcard = false) (possible : ahead ≠ [] → left ≠ [])
    (refused : ¬ (Commitment.accepts (search.boundAfter trail) ahead.isEmpty piece segment = true ∧
      left.isEmpty = ahead.isEmpty)) :
    search.step (search.stateAfter trail []) = fallBack (search.stateAfter trail []) := by
  have continues : ¬ (left.isEmpty && !ahead.isEmpty) = true := by
    intro short
    simp only [Bool.and_eq_true, List.isEmpty_iff, Bool.not_eq_true', ← Bool.not_eq_true] at short
    exact possible short.2 short.1
  rw [step_eq progress (.inl plain), if_neg continues, if_neg]
  simpa [progress.covers.accepts_eq plain] using refused

end PathPattern.Search
