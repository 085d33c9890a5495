import PathPattern.Proofs.Commitment.Stages
import PathPattern.Proofs.Search.Steps

namespace PathPattern

namespace Trail

theorem segments_append (run past : Trail) :
    Trail.segments (run ++ past) = past.segments ++ run.segments := by
  induction run with
  | nil => simp [segments]
  | cons entry run ih => simp [segments, ih]

theorem pieces_append (run past : Trail) :
    Trail.pieces (run ++ past) = past.pieces ++ run.pieces := by
  induction run with
  | nil => simp [pieces]
  | cons entry run ih => simp [pieces, ih]

/-- No wildcard is on the trail. -/
def Plain (trail : Trail) : Prop := ∀ entry ∈ trail, entry.1.isWildcard = false

theorem Plain.segments {trail : Trail} (plain : trail.Plain) :
    Commitment.Plain trail.segments := by
  induction trail with
  | nil => simp [Trail.segments, Commitment.Plain]
  | cons entry trail ih =>
      obtain ⟨plainEntry, plainTrail⟩ := List.forall_mem_cons.1 plain
      exact List.forall_mem_append.2 ⟨ih plainTrail, by simpa using plainEntry⟩

/-- Behind its latest wildcard a trail has no other. -/
theorem Plain.isWildcard_behind {run past : Trail} {entry : Segment × List Text} {place : Nat}
    {passed : Segment} (plain : run.Plain) (behind : past.length < place)
    (there : (Trail.segments (run ++ entry :: past))[place]? = some passed) :
    passed.isWildcard = false := by
  have front : (Trail.segments (entry :: past)).length ≤ place := by
    rw [length_segments, List.length_cons]
    omega
  rw [segments_append, List.getElem?_append_right front] at there
  exact plain.segments passed (List.mem_of_getElem? there)

theorem plain_or_exists_latest (trail : Trail) :
    trail.Plain ∨ ∃ (run : Trail) (key : Text) (block : List Text) (past : Trail),
      trail = run ++ (.wildcard key, block) :: past ∧ run.Plain := by
  induction trail with
  | nil => exact .inl (by simp [Plain])
  | cons entry trail ih =>
      obtain ⟨segment, block⟩ := entry
      cases wild : segment.isWildcard with
      | true =>
          cases segment with
          | wildcard key => exact .inr ⟨[], key, block, trail, rfl, by simp [Plain]⟩
          | _ => simp [Segment.isWildcard] at wild
      | false =>
          rcases ih with plain | ⟨run, key, latest, past, rfl, plain⟩
          · exact .inl (List.forall_mem_cons.2 ⟨wild, plain⟩)
          · exact .inr ⟨(segment, block) :: run, key, latest, past, rfl,
              List.forall_mem_cons.2 ⟨wild, plain⟩⟩

end Trail

namespace Search

variable {search : Search} {trail run past : Trail} {taken block left : List Text}
  {ahead : List Segment} {segment : Segment} {key : Text} {state : State}

/-- The growth of a wildcard behind a trail, when the segment at some index refuses. -/
def growthAfter (search : Search) (past : Trail) (block : List Text) (refused : Nat) :
    Growth where
  wildcard := past.length
  refused := refused
  start := search.offsetAfter past
  reach := Text.extent search.separator block

theorem fallbackAfter_append (plain : run.Plain) :
    search.fallbackAfter (run ++ past) = search.fallbackAfter past := by
  induction run with
  | nil => rfl
  | cons entry run ih =>
      obtain ⟨plainEntry, plainRun⟩ := List.forall_mem_cons.1 plain
      simpa [fallbackAfter, plainEntry] using ih plainRun

theorem resumed?_append (plain : run.Plain) :
    resumed? (search.stateAfter (run ++ past) []) = resumed? (search.stateAfter past []) := by
  induction run with
  | nil => rfl
  | cons entry run ih =>
      obtain ⟨plainEntry, plainRun⟩ := List.forall_mem_cons.1 plain
      exact (resumed?_plain entry.2 plainEntry).trans (ih plainRun)

theorem fallBack_plain (plain : trail.Plain) :
    fallBack (search.stateAfter trail []) = .stop .failed := by
  have stuck : resumed? (search.stateAfter (trail ++ []) []) = none := resumed?_append plain
  rw [List.append_nil] at stuck
  exact fallBack_of_none stuck

theorem fallBack_latest (plain : run.Plain) (nonempty : block ≠ []) :
    fallBack (search.stateAfter (run ++ (.wildcard key, block) :: past) []) =
      .grow (search.growthAfter past block (run ++ (.wildcard key, block) :: past).length)
        (search.stateAfter past block) := by
  have found : (search.stateAfter (run ++ (.wildcard key, block) :: past) []).fallback =
      some (search.placeAfter past block) := search.fallbackAfter_append plain
  have back : resumed? (search.stateAfter (run ++ (.wildcard key, block) :: past) []) =
      some (search.stateAfter past block) :=
    (resumed?_append plain).trans (resumed?_wildcard key nonempty)
  simp only [resumed?, fallBack, found, Option.some.injEq] at back
  simp only [fallBack, found, back]
  rfl

/-- A search that stands in front of a segment.  Only a wildcard that is not the last
segment can have taken pieces before. -/
structure Standing (search : Search) (trail : Trail) (taken : List Text) (segment : Segment)
    (ahead : List Segment) (left : List Text) : Prop where
  progress : Progress search trail taken (segment :: ahead) left
  grown : taken ≠ [] → segment.isWildcard = true ∧ ahead ≠ []

/-- What a step can do from where a search stands. -/
inductive Moves (search : Search) (trail : Trail) (taken : List Text) (segment : Segment)
    (ahead : List Segment) (left : List Text) : Step → Prop where
  | matched (fresh : taken = []) (last : ahead = []) :
      Moves search trail taken segment ahead left
        (.stop (.matched (search.bindingsAfter ((segment, left) :: trail))))
  | failed : Moves search trail taken segment ahead left (.stop .failed)
  | advance {piece : Text} {next : Segment} {behind : List Segment} {rest : List Text}
      (divided : left = piece :: rest) (follows : ahead = next :: behind)
      (standing : Standing search ((segment, taken ++ [piece]) :: trail) [] next behind rest) :
      Moves search trail taken segment ahead left
        (.advance (search.stateAfter ((segment, taken ++ [piece]) :: trail) []))
  | grow {run past : Trail} {key : Text} {block : List Text} (fresh : taken = [])
      (refused : segment.isWildcard = false)
      (latest : trail = run ++ (.wildcard key, block) :: past) (plain : run.Plain)
      (standing : Standing search past block (.wildcard key) (run.segments ++ segment :: ahead)
        (run.pieces ++ left)) :
      Moves search trail taken segment ahead left
        (.grow (search.growthAfter past block trail.length) (search.stateAfter past block))

namespace Standing

theorem initial (separated : search.separator ≠ [])
    (whole : search.segments = segment :: ahead) :
    Standing search [] [] segment ahead (search.input.pieces search.separator) where
  progress := whole ▸ Progress.initial separated
  grown grows := absurd rfl grows

theorem of_progress (progress : Progress search trail [] (segment :: ahead) left) :
    Standing search trail [] segment ahead left :=
  ⟨progress, fun grows => absurd rfl grows⟩

theorem fresh (standing : Standing search trail taken segment ahead left)
    (still : segment.isWildcard = false ∨ ahead = []) : taken = [] := by
  cases taken with
  | nil => rfl
  | cons piece taken =>
      obtain ⟨wild, inner⟩ := standing.grown (by simp)
      rcases still with plain | last
      · simp [wild] at plain
      · exact absurd last inner

theorem resume (standing : Standing search (run ++ (.wildcard key, block) :: past) [] segment
    ahead left) :
    Standing search past block (.wildcard key) (run.segments ++ segment :: ahead)
      (run.pieces ++ left) where
  progress :=
    { separated := standing.progress.separated
      nonempty := fun entry member =>
        standing.progress.nonempty entry (by simp [member])
      segments := by
        have whole := standing.progress.segments
        simpa [Trail.segments_append, Trail.segments] using whole
      pieces := by
        have whole := standing.progress.pieces
        simpa [Trail.pieces_append, Trail.pieces] using whole
      more := by simp [standing.progress.more] }
  grown _ := ⟨rfl, by simp⟩

theorem moves_refused (standing : Standing search trail [] segment ahead left)
    (plain : segment.isWildcard = false) :
    Moves search trail [] segment ahead left (fallBack (search.stateAfter trail [])) := by
  rcases trail.plain_or_exists_latest with none | ⟨run, key, block, past, rfl, plainRun⟩
  · rw [fallBack_plain none]
    exact .failed
  · have nonempty : block ≠ [] :=
      standing.progress.nonempty (.wildcard key, block) (by simp)
    rw [fallBack_latest plainRun nonempty]
    exact .grow rfl plain rfl plainRun standing.resume

theorem moves_wildcard (standing : Standing search trail taken (.wildcard key) ahead left) :
    Moves search trail taken (.wildcard key) ahead left
      (search.step (search.stateAfter trail taken)) := by
  have progress := standing.progress
  obtain ⟨piece, rest, rfl⟩ := List.exists_cons_of_ne_nil progress.more
  cases ahead with
  | nil =>
      obtain rfl := standing.fresh (.inr rfl)
      rw [step_terminal progress]
      exact .matched rfl rfl
  | cons next behind =>
      by_cases more : rest = []
      · subst more
        rw [step_exhausted progress]
        exact .failed
      · rw [step_wildcard progress more]
        exact .advance rfl rfl (.of_progress (progress.advance more))

theorem moves_plain (standing : Standing search trail [] segment ahead left)
    (plain : segment.isWildcard = false) :
    Moves search trail [] segment ahead left (search.step (search.stateAfter trail [])) := by
  have progress := standing.progress
  obtain ⟨piece, rest, rfl⟩ := List.exists_cons_of_ne_nil progress.more
  by_cases exhausted : rest = [] ∧ ahead ≠ []
  · obtain ⟨rfl, inner⟩ := exhausted
    obtain ⟨next, behind, rfl⟩ := List.exists_cons_of_ne_nil inner
    rw [step_exhausted progress]
    exact .failed
  · by_cases taken : Commitment.accepts (search.boundAfter trail) ahead.isEmpty piece segment =
        true ∧ rest.isEmpty = ahead.isEmpty
    · obtain ⟨accepted, ended⟩ := taken
      cases ahead with
      | nil =>
          obtain rfl := List.isEmpty_iff.1 ended
          rw [step_last progress plain accepted]
          exact .matched rfl rfl
      | cons next behind =>
          have more : rest ≠ [] := List.isEmpty_eq_false_iff.1 ended
          rw [step_taken progress plain more accepted]
          exact .advance rfl rfl (.of_progress (progress.advance more))
    · rw [step_refused progress plain (fun inner empty => exhausted ⟨empty, inner⟩) taken]
      exact standing.moves_refused plain

theorem moves (standing : Standing search trail taken segment ahead left) :
    Moves search trail taken segment ahead left (search.step (search.stateAfter trail taken)) := by
  cases wild : segment.isWildcard with
  | true =>
      cases segment with
      | wildcard key => exact standing.moves_wildcard
      | _ => simp [Segment.isWildcard] at wild
  | false =>
      obtain rfl := standing.fresh (.inl wild)
      exact standing.moves_plain wild

end Standing

/-- Every state that a search comes through is one where it stands somewhere, behind a trail
of which all holds that holds at first and is kept when a segment joins the trail and when
the search falls back. -/
theorem exists_standing_keeping (Holds : Trail → Prop) (first : Holds [])
    (joins : ∀ {trail : Trail} {taken : List Text} {segment next : Segment}
      {ahead : List Segment} {piece : Text} {rest : List Text} {after : State},
      Standing search trail taken segment (next :: ahead) (piece :: rest) →
        search.step (search.stateAfter trail taken) = .advance after →
        Holds trail → Holds ((segment, taken ++ [piece]) :: trail))
    (back : ∀ {run past : Trail}, Holds (run ++ past) → Holds past)
    (separated : search.separator ≠ []) (nonempty : search.segments ≠ [])
    (reaches : search.Reaches state) :
    ∃ trail taken segment ahead left, Standing search trail taken segment ahead left ∧
      Holds trail ∧ state = search.stateAfter trail taken := by
  induction reaches with
  | initial =>
      obtain ⟨segment, ahead, whole⟩ := List.exists_cons_of_ne_nil nonempty
      exact ⟨[], [], segment, ahead, _, .initial separated whole, first, rfl⟩
  | advance _ step ih =>
      obtain ⟨trail, taken, segment, ahead, left, standing, holds, rfl⟩ := ih
      have moves := standing.moves
      rw [step] at moves
      cases moves with
      | advance divided follows after =>
          subst divided follows
          exact ⟨_, _, _, _, _, after, joins standing step holds, rfl⟩
  | grow _ step ih =>
      obtain ⟨trail, taken, segment, ahead, left, standing, holds, rfl⟩ := ih
      have moves := standing.moves
      rw [step] at moves
      cases moves with
      | @grow run past key block fresh refused latest plain after =>
          have whole : trail = (run ++ [(.wildcard key, block)]) ++ past := by simp [latest]
          exact ⟨_, _, _, _, _, after, back (whole ▸ holds), rfl⟩

theorem exists_standing_of_reaches (separated : search.separator ≠ [])
    (nonempty : search.segments ≠ []) (reaches : search.Reaches state) :
    ∃ trail taken segment ahead left, Standing search trail taken segment ahead left ∧
      state = search.stateAfter trail taken := by
  obtain ⟨trail, taken, segment, ahead, left, standing, _, same⟩ :=
    exists_standing_keeping (fun _ => True) trivial (fun _ _ _ => trivial) (fun _ => trivial)
      separated nonempty reaches
  exact ⟨trail, taken, segment, ahead, left, standing, same⟩

/-- Whatever a search did on the way, the keys that are bound are those of the segments in
front of the one at hand. -/
theorem keys_of_reaches (separated : search.separator ≠ []) (nonempty : search.segments ≠ [])
    (reaches : search.Reaches state) :
    state.bindings.entries.map Prod.fst =
      if search.initial.bindings.enabled then
        (search.segments.take state.index).filterMap Segment.key?
      else [] := by
  obtain ⟨trail, taken, segment, ahead, left, standing, rfl⟩ :=
    exists_standing_of_reaches separated nonempty reaches
  have passed : search.segments.take trail.length = trail.segments := by
    rw [← standing.progress.segments, ← Trail.length_segments, List.take_left]
  rw [show (search.stateAfter trail taken).index = trail.length from rfl, passed]
  exact search.keys_bindingsAfter trail

end Search

end PathPattern
