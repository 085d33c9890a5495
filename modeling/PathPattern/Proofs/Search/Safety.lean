import PathPattern.Proofs.Search.Termination

namespace PathPattern

namespace Bindings

variable {bindings : Bindings} {input : Text}

/-- Every span that is bound can be read from an input. -/
def Readable (bindings : Bindings) (input : Text) : Prop :=
  ∀ entry ∈ bindings.entries, (entry.2.read? input).isSome

theorem Readable.bind {key : Text} {span : Span} (readable : bindings.Readable input)
    (read : (span.read? input).isSome) : (bindings.bind key span).Readable input := by
  unfold Bindings.bind
  split
  · intro entry member
    rcases List.mem_append.1 member with earlier | own
    · exact readable entry earlier
    · rwa [List.mem_singleton.1 own]
  · exact readable

theorem Readable.keys_texts (readable : bindings.Readable input) :
    (bindings.texts input).map Prod.fst = bindings.entries.map Prod.fst := by
  obtain ⟨enabled, entries⟩ := bindings
  simp only [Readable] at readable
  simp only [texts]
  induction entries with
  | nil => rfl
  | cons entry entries ih =>
      obtain ⟨first, rest⟩ := List.forall_mem_cons.1 readable
      obtain ⟨value, read⟩ := Option.isSome_iff_exists.1 first
      simp [read, ih rest]

end Bindings

namespace Search

variable {search : Search} {trail : Trail} {taken left : List Text} {segment : Segment}
  {ahead : List Segment} {state : State}

theorem Covers.readable (covers : Covers search trail) :
    (search.bindingsAfter trail).Readable search.input := by
  induction trail with
  | nil => simp [Bindings.Readable, bindingsAfter, initial]
  | cons entry past ih =>
      obtain ⟨segment, block⟩ := entry
      have read := Option.isSome_of_eq_some covers.read?_spanAfter
      have before := ih covers.of_cons
      simp only [bindingsAfter, Segment.record]
      split
      · exact before.bind read
      · exact before

/-- The offsets of a state cut the input, and the run offered to its segment can be read.
All of its bindings are captured. -/
structure Inside (search : Search) (state : State) : Prop where
  reach_le : state.offset + state.reach ≤ search.input.byteSize
  offers : ∃ segment boundary, search.segments[state.index]? = some segment ∧
    search.boundary? state segment = some boundary ∧ state.offset ≤ boundary.stop ∧
    (Span.read? ⟨state.offset, boundary.stop⟩ search.input).isSome
  readable : state.bindings.Readable search.input
  captured : (state.bindings.texts search.input).map Prod.fst =
    state.bindings.entries.map Prod.fst

namespace Standing

theorem exists_boundary (standing : Standing search trail taken segment ahead left) :
    ∃ block atEnd, Covers search ((segment, block) :: trail) ∧
      search.boundary? (search.stateAfter trail taken) segment =
        some ⟨(search.spanAfter trail block).stop, atEnd⟩ := by
  have progress := standing.progress
  -- A last wildcard is offered all that is left, any other segment one more piece.
  by_cases terminal : segment.isWildcard = true ∧ ahead = []
  · obtain ⟨wild, rfl⟩ := terminal
    obtain rfl := standing.fresh (.inr rfl)
    refine ⟨left, true, progress.covers_cons (List.append_nil left).symm progress.more, ?_⟩
    simp only [boundary?, wild, progress.atLast_eq, List.isEmpty_nil, Bool.and_self, if_true,
      progress.byteSize_eq, List.nil_append]
  · obtain ⟨piece, rest, rfl⟩ := List.exists_cons_of_ne_nil progress.more
    have inner : segment.isWildcard = false ∨ ahead ≠ [] := by
      cases wild : segment.isWildcard with
      | false => exact .inl rfl
      | true => exact .inr fun last => terminal ⟨wild, last⟩
    exact ⟨taken ++ [piece], rest.isEmpty,
      progress.covers_cons (show piece :: rest = [piece] ++ rest from rfl) (by simp),
      progress.boundary_eq inner⟩

theorem inside (standing : Standing search trail taken segment ahead left) :
    search.Inside (search.stateAfter trail taken) := by
  have progress := standing.progress
  obtain ⟨block, atEnd, covers, found⟩ := standing.exists_boundary
  have size := Text.byteSize_of_pieces progress.more progress.pieces.symm
  rw [Text.extent_append] at size
  have readable : (search.bindingsAfter trail).Readable search.input := covers.of_cons.readable
  constructor
  · simp only [stateAfter, offsetAfter]
    omega
  · exact ⟨segment, _, progress.segment_at, found, Nat.le_add_right _ _,
      Option.isSome_of_eq_some covers.read?_spanAfter⟩
  · exact readable
  · exact readable.keys_texts

end Standing

end Search

end PathPattern
