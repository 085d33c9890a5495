import PathPattern.Pattern
import PathPattern.Proofs.Search.Blocks

namespace PathPattern.Search

variable {search : Search} {trail : Trail} {taken left : List Text} {segment : Segment}
  {ahead : List Segment} {state : State}

/-- The search has just fallen back to the state. -/
def Resumed (search : Search) (state : State) : Prop :=
  ∃ previous growth, search.Reaches previous ∧ search.step previous = .grow growth state

/-- The segments in front of a state have taken blocks of the first pieces, and the state is
where the pieces that are `left` start.  The input in front of it is the text of the blocks,
and the spans of the blocks are bound. -/
structure Passed (search : Search) (state : State) (blocks : List (List Text))
    (left : List Text) : Prop where
  size : blocks.length = state.index
  inside : search.segments ≠ [] → state.index < search.segments.length
  suits : ∀ entry ∈ (search.segments.take state.index).zip blocks,
    entry.1.Suits false entry.2
  pieces : blocks.flatten ++ left = search.input.pieces search.separator
  more : left ≠ []
  start : state.offset = Text.extent search.separator blocks.flatten
  front : search.input.splitAt? state.offset =
    some (Text.followed search.separator blocks, search.separator.intercalate left)
  enabled : state.bindings.enabled = (search.capturing || search.comparing)
  entries : state.bindings.entries =
    if state.bindings.enabled then
      Cut.spans search.separator 0 (search.segments.take state.index) blocks
    else []

/-- A place to fall back to is a wildcard, and keeps where it starts and how many segments
that bind are in front of it. -/
structure Marks (search : Search) (blocks : List (List Text)) (place : Fallback) : Prop where
  wildcard : ∃ key, search.segments[place.wildcard]? = some (.wildcard key)
  start : place.start =
    (Text.followed search.separator (blocks.take place.wildcard)).byteSize
  bound : place.bound =
    if search.capturing || search.comparing then
      (search.segments.take place.wildcard).countP fun segment => !segment.isLiteral
    else 0

theorem Progress.take_segments (progress : Progress search trail taken ahead left) :
    search.segments.take trail.length = trail.segments := by
  rw [← progress.segments, ← Trail.length_segments, List.take_left]

theorem Progress.getElem?_segments {place : Nat}
    (progress : Progress search trail taken ahead left) (inside : place < trail.length) :
    search.segments[place]? = trail.segments[place]? := by
  rw [← progress.segments, List.getElem?_append_left (by rwa [Trail.length_segments])]

theorem Progress.passed (progress : Progress search trail taken ahead left)
    (suited : trail.Suited) (inside : search.segments ≠ [] → ahead ≠ []) :
    search.Passed (search.stateAfter trail taken) trail.blocks (taken ++ left) where
  size := trail.length_blocks
  inside nonempty := by
    have count := congrArg List.length progress.segments
    have some := List.length_pos_iff.2 (inside nonempty)
    simp only [List.length_append, Trail.length_segments] at count
    simp only [stateAfter]
    omega
  suits entry member := by
    simp only [stateAfter, progress.take_segments, Trail.zip_segments_blocks,
      List.mem_reverse] at member
    exact suited entry member
  pieces := by rw [trail.flatten_blocks, ← List.append_assoc, progress.pieces]
  more := by simp [progress.more]
  start := by rw [trail.flatten_blocks]; rfl
  front := by
    refine Text.splitAt?_eq_some_iff.2 ⟨?_, progress.covers.offsetAfter_eq.symm⟩
    rw [Text.followed_append_intercalate progress.covers.nonempty_blocks
      (by simp [progress.more]), trail.flatten_blocks, ← List.append_assoc, progress.pieces,
      Text.intercalate_pieces]
  enabled := search.bindingsAfter_enabled trail
  entries := by
    simp only [stateAfter, progress.take_segments, bindingsAfter_enabled]
    exact progress.covers.entries_bindingsAfter

theorem marks_placeAfter {past : Trail} {key : Text} {behind : List Segment}
    {block : List Text} {others : List (List Text)} (covers : Covers search past)
    (segments : past.segments ++ .wildcard key :: behind = search.segments) :
    search.Marks (past.blocks ++ others) (search.placeAfter past block) where
  wildcard := ⟨key, by simp [← segments, placeAfter, ← Trail.length_segments]⟩
  start := by
    simp only [placeAfter, ← past.length_blocks, List.take_left]
    exact covers.offsetAfter_eq
  bound := by
    have front : search.segments.take past.length = past.segments := by
      rw [← segments, ← Trail.length_segments, List.take_left]
    simp only [placeAfter, front]
    exact search.size_bindingsAfter past

theorem extent_eq_zero_iff (separated : search.separator ≠ []) :
    Text.extent search.separator taken = 0 ↔ taken = [] := by
  cases taken with
  | nil => simp
  | cons piece taken =>
      have positive := mt Text.byteSize_eq_zero.1 separated
      simp only [Text.extent_cons, reduceCtorEq, iff_false]
      omega

theorem step_of_empty (empty : search.segments = []) (state : State) :
    search.step state = .stop .strayed := by
  simp [step, empty]

/-- A search without segments does not leave its first state. -/
theorem eq_initial_of_reaches (empty : search.segments = []) (reaches : search.Reaches state) :
    state = search.initial := by
  cases reaches with
  | initial => rfl
  | advance _ step => simp [step_of_empty empty] at step
  | grow _ step => simp [step_of_empty empty] at step

theorem not_resumed_of_empty (empty : search.segments = []) : ¬ search.Resumed state := by
  intro ⟨previous, growth, _, step⟩
  simp [step_of_empty empty] at step

/-- The search has just fallen back where the wildcard at hand has pieces already. -/
theorem resumed_iff (separated : search.separator ≠ []) (nonempty : search.segments ≠ [])
    (reaches : search.Reaches state) : search.Resumed state ↔ state.reach ≠ 0 := by
  constructor
  · intro ⟨previous, growth, before, step⟩
    obtain ⟨trail, taken, segment, ahead, left, standing, rfl⟩ :=
      exists_standing_of_reaches separated nonempty before
    have moves := standing.moves
    rw [step] at moves
    cases moves with
    | grow fresh refused latest plain after =>
        subst latest
        have someBlock := standing.progress.nonempty _ (List.mem_append_right _ List.mem_cons_self)
        exact mt (extent_eq_zero_iff separated).1 someBlock
  · intro grown
    cases reaches with
    | initial => simp [initial] at grown
    | advance before step =>
        obtain ⟨trail, taken, segment, ahead, left, standing, rfl⟩ :=
          exists_standing_of_reaches separated nonempty before
        have moves := standing.moves
        rw [step] at moves
        cases moves with
        | advance divided follows after => simp [stateAfter] at grown
    | grow before step => exact ⟨_, _, before, step⟩

/-- Where a search can fall back to: nowhere if it has passed no wildcard, else to the latest
one; and to the wildcard at hand if that has pieces already. -/
inductive FallsTo (search : Search) (trail : Trail) (segment : Segment) :
    List Text → Option Fallback → Prop where
  | nowhere (plain : trail.Plain) : FallsTo search trail segment [] none
  | passed {run past : Trail} {key : Text} {block : List Text}
      (latest : trail = run ++ (.wildcard key, block) :: past) (plain : run.Plain) :
      FallsTo search trail segment [] (some (search.placeAfter past block))
  | here {taken : List Text} {key : Text} (grown : taken ≠ []) (wild : segment = .wildcard key) :
      FallsTo search trail segment taken (some (search.placeAfter trail taken))

namespace Standing

theorem fallsTo (standing : Standing search trail taken segment ahead left) :
    search.FallsTo trail segment taken (search.stateAfter trail taken).fallback := by
  by_cases fresh : taken = []
  · subst fresh
    have after : (search.stateAfter trail []).fallback = search.fallbackAfter trail := rfl
    rw [after]
    rcases trail.plain_or_exists_latest with plain | ⟨run, key, block, past, rfl, plain⟩
    · have none : search.fallbackAfter (trail ++ []) = search.fallbackAfter [] :=
        search.fallbackAfter_append plain
      rw [List.append_nil] at none
      rw [none]
      exact .nowhere plain
    · have latest : search.fallbackAfter ((.wildcard key, block) :: past) =
          some (search.placeAfter past block) := rfl
      rw [search.fallbackAfter_append plain, latest]
      exact .passed rfl plain
  · have here : (search.stateAfter trail taken).fallback =
        some (search.placeAfter trail taken) := by simp [stateAfter, fresh]
    rw [here]
    cases segment with
    | wildcard key => exact .here fresh rfl
    | _ => exact absurd (standing.grown fresh).1 (by simp [Segment.isWildcard])

theorem exists_fallback_iff (standing : Standing search trail taken segment ahead left) :
    (∃ place, (search.stateAfter trail taken).fallback = some place) ↔
      (∃ earlier ∈ trail.segments, earlier.isWildcard = true) ∨ taken ≠ [] := by
  have falls := standing.fallsTo
  generalize (search.stateAfter trail taken).fallback = fallback at falls ⊢
  cases falls with
  | nowhere plain =>
      simp only [reduceCtorEq, exists_false, ne_eq, not_true_eq_false, or_false, false_iff]
      intro ⟨earlier, member, wild⟩
      simp [plain.segments earlier member] at wild
  | @passed run past key block latest plain =>
      subst latest
      exact iff_of_true ⟨_, rfl⟩ (.inl ⟨.wildcard key,
        by simp [Trail.segments_append, Trail.segments], rfl⟩)
  | here grown wild => exact iff_of_true ⟨_, rfl⟩ (.inr grown)

theorem marks {place : Fallback} (standing : Standing search trail taken segment ahead left)
    (found : (search.stateAfter trail taken).fallback = some place) :
    search.Marks trail.blocks place := by
  have falls := standing.fallsTo
  have progress := standing.progress
  rw [found] at falls
  cases falls with
  | passed latest plain =>
      subst latest
      rw [Trail.blocks_append, Trail.blocks, List.append_assoc]
      exact marks_placeAfter standing.resume.progress.covers standing.resume.progress.segments
  | here grown wild =>
      subst wild
      have own : search.Marks (trail.blocks ++ []) (search.placeAfter trail taken) :=
        marks_placeAfter progress.covers progress.segments
      rwa [List.append_nil] at own

theorem place_resumed {place : Fallback}
    (standing : Standing search trail taken segment ahead left)
    (found : (search.stateAfter trail taken).fallback = some place) (grown : taken ≠ []) :
    place.wildcard = trail.length ∧ place.start = search.offsetAfter trail := by
  have falls := standing.fallsTo
  rw [found] at falls
  cases falls with
  | passed latest plain => exact absurd rfl grown
  | here grown wild => exact ⟨rfl, rfl⟩

theorem place_latest {place : Fallback}
    (standing : Standing search trail [] segment ahead left)
    (found : (search.stateAfter trail []).fallback = some place) :
    place.wildcard < trail.length ∧ ∀ later passed, place.wildcard < later →
      later < trail.length → search.segments[later]? = some passed →
      passed.isWildcard = false := by
  have falls := standing.fallsTo
  rw [found] at falls
  generalize shape : ([] : List Text) = taken at falls
  cases falls with
  | here grown wild => exact absurd shape.symm grown
  | @passed run past key block latest plain =>
      subst latest
      refine ⟨by simp only [placeAfter, List.length_append, List.length_cons]; omega, ?_⟩
      intro later passed behind inside there
      rw [standing.progress.getElem?_segments inside] at there
      exact plain.isWildcard_behind behind there

end Standing

/-- At every state that a search comes through, the segments in front of it have taken
blocks of the first pieces, and their spans are all that is bound.  The place to fall back to
is the latest wildcard among them, or the wildcard at hand if the search has just fallen back
to it; so falling back leaves just what was there when the wildcard started. -/
theorem reaches_passed (settings : Settings) (segments : List Segment) (input : Text)
    (capturing : Bool) (separated : settings.separator ≠ []) :
    let search := Search.of settings segments input capturing
    ∀ state, search.Reaches state → ∃ blocks left, search.Passed state blocks left ∧
      (search.Resumed state ↔ state.reach ≠ 0) ∧
      ((∃ place, state.fallback = some place) ↔
        (∃ earlier ∈ segments.take state.index, earlier.isWildcard = true) ∨
          search.Resumed state) ∧
      ∀ place, state.fallback = some place →
        search.Marks blocks place ∧
        (search.Resumed state →
          place.wildcard = state.index ∧ place.start = state.offset) ∧
        (¬ search.Resumed state → place.wildcard < state.index ∧
          ∀ later passed, place.wildcard < later → later < state.index →
            segments[later]? = some passed → passed.isWildcard = false) := by
  intro search state reaches
  by_cases empty : search.segments = []
  · obtain rfl := eq_initial_of_reaches empty reaches
    have progress : Progress search [] [] search.segments _ := .initial separated
    have passed := progress.passed (by simp [Trail.Suited]) fun nonempty => absurd empty nonempty
    have none : segments = [] := empty
    refine ⟨_, _, passed, ?_, ?_, ?_⟩
    · exact iff_of_false (not_resumed_of_empty empty) (by simp [initial])
    · exact iff_of_false (by simp [initial]) (by simp [not_resumed_of_empty empty, none])
    · intro place found
      simp [initial] at found
  · have resumed := resumed_iff separated empty reaches
    obtain ⟨trail, taken, segment, ahead, left, standing, suited, rfl⟩ :=
      exists_suited_of_reaches separated empty reaches
    have passed := standing.progress.passed suited fun _ => by simp
    have grown : search.Resumed (search.stateAfter trail taken) ↔ taken ≠ [] :=
      resumed.trans (not_congr (extent_eq_zero_iff separated))
    have front : segments.take (search.stateAfter trail taken).index = trail.segments :=
      standing.progress.take_segments
    refine ⟨_, _, passed, resumed, ?_, ?_⟩
    · rw [grown, front]
      exact standing.exists_fallback_iff
    · intro place found
      refine ⟨standing.marks found, fun back => standing.place_resumed found (grown.1 back), ?_⟩
      intro onward
      obtain rfl : taken = [] := Decidable.not_not.1 (mt grown.2 onward)
      exact standing.place_latest found

/-- The wildcard takes a second piece when the literal refuses it.  Its first span is gone
then, and the span of the parameter before it is kept. -/
theorem reaches_passed_grown :
    let settings : Settings := {}
    let segments : List Segment :=
      [.parameter ['p'] false, .wildcard ['w'], .literal ['b'], .wildcard ['v']]
    let search := Search.of settings segments "x/a/c/b/d".toList true
    let back : State :=
      { index := 1, offset := 2, reach := 2, fallback := some ⟨1, 2, 2, 1⟩,
        bindings := ⟨true, [(['p'], ⟨0, 1⟩)]⟩ }
    let onward : State :=
      { index := 3, offset := 8, fallback := some ⟨1, 2, 4, 1⟩,
        bindings := ⟨true, [(['p'], ⟨0, 1⟩), (['w'], ⟨2, 5⟩)]⟩ }
    settings.separator ≠ [] ∧ search.Reaches back ∧ search.Reaches onward ∧
      search.Resumed back ∧ ¬ search.Resumed onward ∧
      (∃ blocks left, search.Passed back blocks left ∧ search.Marks blocks ⟨1, 2, 2, 1⟩) ∧
      ∃ blocks left, search.Passed onward blocks left ∧ search.Marks blocks ⟨1, 2, 4, 1⟩ := by
  intro settings segments search back onward
  have separated : settings.separator ≠ [] := by decide
  have reachesBack : search.Reaches back :=
    .grow (.advance (.advance .initial rfl) rfl) rfl
  have reachesOnward : search.Reaches onward := .advance (.advance reachesBack rfl) rfl
  obtain ⟨blocks, left, passed, resumed, _, places⟩ :=
    reaches_passed settings segments "x/a/c/b/d".toList true separated back reachesBack
  obtain ⟨later, rest, passedLater, resumedLater, _, placesLater⟩ :=
    reaches_passed settings segments "x/a/c/b/d".toList true separated onward reachesOnward
  exact ⟨separated, reachesBack, reachesOnward, resumed.2 (by decide),
    mt resumedLater.1 (by decide), ⟨blocks, left, passed, (places _ rfl).1⟩,
    later, rest, passedLater, (placesLater _ rfl).1⟩

end PathPattern.Search
