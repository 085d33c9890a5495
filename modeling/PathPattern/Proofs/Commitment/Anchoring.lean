import PathPattern.Proofs.Commitment.Completeness
import PathPattern.Proofs.Cut.Uniform

namespace PathPattern

open Commitment (Plain Stage spread stages)

variable {key : Text} {rest segments : List Segment}

namespace Segment

/-- A parameter with the key stands before the first wildcard. -/
def Anchored (segments : List Segment) (key : Text) : Prop :=
  ∃ before mustAgree after,
    segments = before ++ .parameter key mustAgree :: after ∧ Plain before

/-- No wildcard stands between two parameters with the key.  So a key of one parameter is
confined. -/
def Confined (segments : List Segment) (key : Text) : Prop :=
  ∀ before mustAgree between alike after,
    segments = before ++ .parameter key mustAgree :: (between ++ .parameter key alike :: after) →
      Plain between

theorem Confined.of_suffix (confined : Confined segments key) (behind : rest <:+ segments) :
    Confined rest key := by
  obtain ⟨front, rfl⟩ := behind
  intro before mustAgree between alike after whole
  apply confined (front ++ before) mustAgree between alike after
  rw [whole, List.append_assoc]

/-- With one wildcard before the last segment, a key is anchored unless all of its
parameters stand behind that wildcard. -/
theorem anchored_or_confined (few : segments.dropLast.countP isWildcard ≤ 1) (key : Text) :
    Anchored segments key ∨ Confined segments key := by
  by_cases anchored : Anchored segments key
  · exact .inl anchored
  · right
    intro before mustAgree between alike after whole segment member
    cases wild : segment.isWildcard with
    | false => rfl
    | true =>
        have notPlain : ¬ Plain before := fun plain =>
          anchored ⟨before, mustAgree, _, whole, plain⟩
        obtain ⟨other, inBefore, wildOther⟩ :
            ∃ other ∈ before, other.isWildcard = true := by
          simpa [Plain] using notPlain
        have someBefore : 0 < before.countP isWildcard :=
          List.countP_pos_iff.2 ⟨other, inBefore, wildOther⟩
        have someBetween : 0 < between.countP isWildcard :=
          List.countP_pos_iff.2 ⟨segment, member, wild⟩
        have atLeast : before.countP isWildcard + between.countP isWildcard ≤
            segments.dropLast.countP isWildcard := by
          rw [whole, List.dropLast_append_cons, List.dropLast_cons_of_ne_nil (by simp),
            List.dropLast_append_cons, List.countP_append, List.countP_cons, List.countP_append]
          omega
        omega

end Segment

namespace Cut

open Segment (Anchored Apart Checked Confined)

variable {pinned : List Text} {stage : Stage} {later stages : List Stage}

theorem stages_append {run : List Segment} (plain : Plain run) (after : List Segment) :
    Commitment.stages (run ++ after) =
      (run ++ (Commitment.stages after).1, (Commitment.stages after).2) := by
  induction run with
  | nil => rfl
  | cons segment rest ih =>
      obtain ⟨plainSegment, plainRest⟩ := List.forall_mem_cons.1 plain
      rw [List.cons_append, Commitment.stages_cons_plain _ plainSegment, ih plainRest,
        List.cons_append]

theorem mem_openingKeys_of_anchored (anchored : Anchored segments key) :
    key ∈ openingKeys segments := by
  obtain ⟨before, mustAgree, after, rfl, plain⟩ := anchored
  rw [openingKeys, stages_append plain]
  simp [Commitment.stages, Segment.key?]

theorem not_confined_of_mem {mustAgree alike : Bool}
    (inRun : .parameter key mustAgree ∈ stage.run)
    (inLater : .parameter key alike ∈ spread later) :
    ¬ Confined (spread (stage :: later)) key := by
  intro confined
  cases later with
  | nil => simp [spread] at inLater
  | cons next later =>
      have behind : Segment.parameter key alike ∈ next.run ++ spread later := by
        simpa [spread] using inLater
      obtain ⟨front, back, run⟩ := List.append_of_mem inRun
      obtain ⟨middle, after, whole⟩ := List.append_of_mem behind
      have plain := confined (.wildcard stage.key :: front) mustAgree
        (back ++ .wildcard next.key :: middle) alike after (by simp [spread, run, whole])
      have wild := plain (.wildcard next.key) (by simp)
      simp [Segment.isWildcard] at wild

theorem steady_of_confined (checked : Checked (spread stages)) (apart : Apart (spread stages))
    (kept : ∀ key, key ∈ pinned ∨ Confined (spread stages) key) : Steady pinned stages := by
  induction stages with
  | nil => trivial
  | cons stage later ih =>
      have behind : spread later <:+ spread (stage :: later) :=
        ⟨.wildcard stage.key :: stage.run, rfl⟩
      refine ⟨?_, ?_, ?_⟩
      · intro member
        exact apart stage.key true (by simp [spread, member]) (by simp [spread])
      · intro key inLater segment member own
        have parameter : .parameter key true ∈ spread (stage :: later) := behind.mem inLater
        cases segment with
        | literal text => simp [Segment.key?] at own
        | wildcard other =>
            obtain rfl := Option.some.inj own
            refine absurd ?_ (apart other true parameter)
            rw [spread, ← List.cons_append]
            exact List.mem_append_left _ member
        | parameter other mustAgree =>
            obtain rfl := Option.some.inj own
            have inRun : .parameter other mustAgree ∈ stage.run := by simpa using member
            obtain rfl := checked other mustAgree (by simp [spread, inRun])
            exact ⟨(kept other).resolve_right (not_confined_of_mem inRun inLater), rfl⟩
      · apply ih (checked.of_suffix behind) (apart.of_suffix behind)
        intro key
        exact (kept key).imp_right fun confined => confined.of_suffix behind

theorem steady_of_anchored_or_confined (checked : Checked segments) (apart : Apart segments)
    (kept : ∀ key, Anchored segments key ∨ Confined segments key) :
    Steady (openingKeys segments) (Commitment.stages segments).2 := by
  have behind : spread (Commitment.stages segments).2 <:+ segments :=
    ⟨(Commitment.stages segments).1, Commitment.spread_stages segments⟩
  apply steady_of_confined (checked.of_suffix behind) (apart.of_suffix behind)
  intro key
  exact (kept key).imp mem_openingKeys_of_anchored fun confined => confined.of_suffix behind

end Cut

end PathPattern
