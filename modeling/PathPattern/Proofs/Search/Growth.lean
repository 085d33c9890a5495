import PathPattern.Proofs.Search.Standing
import PathPattern.Search.Run

namespace PathPattern.Search

variable {search : Search} {trail run past : Trail} {taken block left : List Text}
  {ahead : List Segment} {segment : Segment} {key : Text} {growths : List Growth}
  {wildcard count : Nat}

def wildcardAt (segments : List Segment) (place : Nat) : Option Bool :=
  segments[place]?.map Segment.isWildcard

/-- The nearest wildcard before a place. -/
structure WildcardBefore (segments : List Segment) (place wildcard : Nat) : Prop where
  before : wildcard < place
  here : wildcardAt segments wildcard = some true
  none_between : ∀ between, wildcard < between → between < place →
    wildcardAt segments between = some false

/-- An offset just behind one of the separators that stand between the pieces. -/
def BehindSeparator (search : Search) (offset : Nat) : Prop :=
  ∃ before after, search.input.pieces search.separator = before ++ after ∧ before ≠ [] ∧
    after ≠ [] ∧ offset = Text.extent search.separator before

namespace Growth

/-- The offset from which a growing wildcard looks for its next end. -/
def resume (growth : Growth) : Nat := growth.start + growth.reach

/-- The nearest wildcard before a segment that is none grows from behind a separator. -/
structure Placed (search : Search) (growth : Growth) : Prop where
  nearest : WildcardBefore search.segments growth.refused growth.wildcard
  refused : wildcardAt search.segments growth.refused = some false
  resumes : search.BehindSeparator growth.resume

end Growth

/-- Growths that go on from a wildcard on and from a number of pieces on.  With each of
them, the next must be from a piece further on. -/
inductive Climbs (search : Search) : Nat → Nat → List Growth → Prop where
  | nil {wildcard count : Nat}
      (within : count ≤ (search.input.pieces search.separator).length) :
      Climbs search wildcard count []
  | cons {wildcard count : Nat} {growth : Growth} {growths : List Growth}
      {before after : List Text} (placed : growth.Placed search)
      (divided : search.input.pieces search.separator = before ++ after)
      (resumes : growth.resume = Text.extent search.separator before)
      (index : wildcard ≤ growth.wildcard) (further : count ≤ before.length)
      (rest : Climbs search growth.wildcard (before.length + 1) growths) :
      Climbs search wildcard count (growth :: growths)

namespace Climbs

theorem placed (climbs : Climbs search wildcard count growths) :
    ∀ growth ∈ growths, growth.Placed search := by
  induction climbs with
  | nil _ => simp
  | cons placed _ _ _ _ _ ih => exact List.forall_mem_cons.2 ⟨placed, ih⟩

theorem length_le (climbs : Climbs search wildcard count growths) :
    growths.length + count ≤ (search.input.pieces search.separator).length := by
  induction climbs with
  | nil within => simpa using within
  | cons _ _ _ _ further _ ih =>
      rw [List.length_cons]
      omega

theorem later {before after : List Text} (separated : search.separator ≠ [])
    (climbs : Climbs search wildcard count growths)
    (divided : search.input.pieces search.separator = before ++ after)
    (fewer : before.length < count) :
    ∀ growth ∈ growths, wildcard ≤ growth.wildcard ∧
      Text.extent search.separator before < growth.resume := by
  induction climbs generalizing before after with
  | nil _ => simp
  | cons _ dividedNext resumes index further _ ih =>
      have lower := Text.extent_lt_extent separated (divided.symm.trans dividedNext)
        (Nat.lt_of_lt_of_le fewer further)
      refine List.forall_mem_cons.2 ⟨⟨index, by rwa [resumes]⟩, ?_⟩
      intro growth member
      obtain ⟨indexLater, behind⟩ := ih dividedNext (Nat.lt_succ_self _) growth member
      exact ⟨Nat.le_trans index indexLater, Nat.lt_trans lower behind⟩

theorem pairwise (separated : search.separator ≠ [])
    (climbs : Climbs search wildcard count growths) :
    growths.Pairwise fun earlier later =>
      earlier.wildcard ≤ later.wildcard ∧ earlier.resume < later.resume := by
  induction climbs with
  | nil _ => exact .nil
  | cons _ divided resumes _ _ rest ih =>
      refine List.pairwise_cons.2 ⟨?_, ih⟩
      rw [resumes]
      exact rest.later separated divided (Nat.lt_succ_self _)

end Climbs

/-- From where a search stands, no growth is at an earlier wildcard or from behind fewer
pieces. -/
structure Floor (trail : Trail) (taken : List Text) (wildcard count : Nat) : Prop where
  index : wildcard ≤ trail.length
  pieces : count ≤ (trail.pieces ++ taken).length + 1
  latest : taken = [] → ∀ (run : Trail) (key : Text) (block : List Text) (past : Trail),
    trail = run ++ (.wildcard key, block) :: past → run.Plain →
      wildcard ≤ past.length ∧ count ≤ (past.pieces ++ block).length

namespace Floor

theorem initial : Floor [] [] 0 1 where
  index := Nat.le_refl 0
  pieces := Nat.le_refl 1
  latest _ run key block past whole := by simp at whole

theorem resume (past : Trail) (block : List Text) (nonempty : block ≠ []) :
    Floor past block past.length ((past.pieces ++ block).length + 1) where
  index := Nat.le_refl _
  pieces := Nat.le_refl _
  latest none := absurd none nonempty

theorem advance {piece : Text} (floor : Floor trail taken wildcard count)
    (fresh : segment.isWildcard = false → taken = []) :
    Floor ((segment, taken ++ [piece]) :: trail) [] wildcard count where
  index := Nat.le_succ_of_le floor.index
  pieces := by
    have atMost := floor.pieces
    simp only [Trail.pieces, List.append_nil, List.length_append, List.length_singleton] at atMost ⊢
    omega
  latest _ run key block past whole plain := by
    -- The latest wildcard is the segment itself, or stands further back than it.
    cases run with
    | nil =>
        simp only [List.nil_append, List.cons.injEq, Prod.mk.injEq] at whole
        obtain ⟨⟨_, rfl⟩, rfl⟩ := whole
        exact ⟨floor.index, by simpa [Nat.add_assoc] using floor.pieces⟩
    | cons entry run =>
        obtain ⟨plainEntry, plainRun⟩ := List.forall_mem_cons.1 plain
        simp only [List.cons_append, List.cons.injEq] at whole
        obtain ⟨rfl, rfl⟩ := whole
        exact floor.latest (fresh plainEntry) run key block past rfl plainRun

end Floor

section Nearest

variable {before between after : List Segment}

theorem wildcardAt_append (before after : List Segment) (place : Nat) :
    wildcardAt (before ++ after) (before.length + place) = wildcardAt after place := by
  rw [wildcardAt, List.getElem?_append_right (Nat.le_add_right _ _), Nat.add_sub_cancel_left,
    wildcardAt]

theorem wildcardAt_plain (plain : Commitment.Plain between) {place : Nat}
    (within : place < between.length) (after : List Segment) :
    wildcardAt (between ++ after) place = some false := by
  have plainHere := plain between[place] (List.getElem_mem within)
  rw [wildcardAt, List.getElem?_append_left within, List.getElem?_eq_getElem within,
    Option.map_some, plainHere]

theorem wildcardBefore_append (before : List Segment) (key : Text)
    (plain : Commitment.Plain between) (after : List Segment) :
    WildcardBefore (before ++ .wildcard key :: (between ++ after))
      (before.length + (between.length + 1)) before.length where
  before := by omega
  here := wildcardAt_append before (.wildcard key :: (between ++ after)) 0
  none_between place lower upper := by
    obtain ⟨offset, rfl⟩ : ∃ offset, place = before.length + (offset + 1) :=
      ⟨place - before.length - 1, by omega⟩
    rw [wildcardAt_append]
    exact wildcardAt_plain plain (by omega) after

end Nearest

theorem Standing.placed
    (standing : Standing search past block (.wildcard key) (run.segments ++ segment :: ahead) left)
    (nonempty : block ≠ []) (plain : run.Plain) (refused : segment.isWildcard = false) :
    (search.growthAfter past block (run ++ (.wildcard key, block) :: past).length).Placed
      search := by
  have length : (run ++ (.wildcard key, block) :: past).length =
      past.segments.length + (run.segments.length + 1) := by
    rw [Trail.length_segments, Trail.length_segments, List.length_append, List.length_cons]
    omega
  have index : past.length = past.segments.length := (Trail.length_segments past).symm
  rw [growthAfter, length, index]
  constructor
  · rw [← standing.progress.segments]
    exact wildcardBefore_append past.segments key plain.segments (segment :: ahead)
  · rw [← standing.progress.segments, wildcardAt_append]
    simpa [wildcardAt] using refused
  · refine ⟨past.pieces ++ block, left, standing.progress.pieces.symm, by simp [nonempty],
      standing.progress.more, ?_⟩
    simp [Growth.resume, offsetAfter]

theorem Floor.within (floor : Floor trail taken wildcard count)
    (standing : Standing search trail taken segment ahead left) :
    count ≤ (search.input.pieces search.separator).length := by
  have atMost := floor.pieces
  have more := List.length_pos_iff.2 standing.progress.more
  rw [← standing.progress.pieces, List.length_append]
  omega

/-- The growths of a run go on from where the search stands. -/
theorem Standing.climbs (standing : Standing search trail taken segment ahead left)
    (floor : Floor trail taken wildcard count) (steps : Nat) :
    Climbs search wildcard count
      (search.runFor steps (search.stateAfter trail taken)).growths := by
  induction steps generalizing trail taken segment ahead left wildcard count with
  | zero => exact .nil (floor.within standing)
  | succ steps ih =>
      have moves := standing.moves
      simp only [runFor]
      generalize search.step (search.stateAfter trail taken) = step at moves ⊢
      cases moves with
      | matched _ _ => exact .nil (floor.within standing)
      | failed => exact .nil (floor.within standing)
      | advance _ _ next =>
          exact ih next (floor.advance fun plain => standing.fresh (.inl plain))
      | @grow run past key block fresh refused latest plain back =>
          -- The next growth is from behind at least one piece more than the block has now.
          have nonempty : block ≠ [] :=
            standing.progress.nonempty (.wildcard key, block) (by simp [latest])
          obtain ⟨index, further⟩ := floor.latest fresh run key block past latest plain
          have rest := ih back (.resume past block nonempty)
          have placed := back.placed nonempty plain refused
          rw [← latest] at placed
          exact .cons placed back.progress.pieces.symm
            (by simp [Growth.resume, growthAfter, offsetAfter]) index further rest

end PathPattern.Search
