import PathPattern.Proofs.Commitment.Stages

namespace PathPattern.Commitment

variable {enabled final : Bool} {separator : Text} {stage : Stage} {bound : Bound}
  {taken pieces : List Text} {dealt : Bound × List Text}

/-- With a block for its wildcard, a stage deals the rest of the pieces to its run. -/
def StageFits (enabled final : Bool) (separator : Text) (stage : Stage) (bound : Bound)
    (block rest : List Text) (dealt : Bound × List Text) : Prop :=
  RunFits enabled final stage.run rest
    (remember enabled (some stage.key) (separator.intercalate block) bound) dealt

theorem exists_least_of_dealStage
    (found : dealStage enabled final separator stage bound taken pieces = some dealt) :
    ∃ block rest, pieces = block ++ rest ∧ block ≠ [] ∧
      StageFits enabled final separator stage bound (taken ++ block) rest dealt ∧
      ∀ other others result, pieces = other ++ others → other ≠ [] →
        StageFits enabled final separator stage bound (taken ++ other) others result →
        block.length ≤ other.length := by
  induction pieces generalizing taken with
  | nil => simp [dealStage] at found
  | cons piece pieces ih =>
      by_cases fits : ∃ now, StageFits enabled final separator stage bound (taken ++ [piece])
          pieces now
      · obtain ⟨now, fitsNow⟩ := fits
        obtain rfl : now = dealt := Option.some.inj ((dealStage_of_fits fitsNow).symm.trans found)
        refine ⟨[piece], pieces, rfl, by simp, fitsNow, ?_⟩
        intro other others result whole nonempty _
        exact List.length_pos_iff.2 nonempty
      · have unfit := not_exists.1 fits
        rw [dealStage_of_unfit unfit] at found
        obtain ⟨block, rest, rfl, nonempty, fitsLater, least⟩ := ih found
        refine ⟨piece :: block, rest, rfl, by simp, by simpa using fitsLater, ?_⟩
        intro other others result whole someOther fitsOther
        obtain ⟨first, further, rfl⟩ := List.exists_cons_of_ne_nil someOther
        simp only [List.cons_append, List.cons.injEq] at whole
        obtain ⟨rfl, whole⟩ := whole
        cases further with
        | nil =>
            simp only [List.nil_append] at whole
            exact absurd (whole ▸ fitsOther) (unfit result)
        | cons second further =>
            have shorter := least _ _ result whole (by simp) (by simpa using fitsOther)
            simpa using shorter

theorem unfit_of_dealStage
    (nothing : dealStage enabled final separator stage bound taken pieces = none) :
    ∀ block rest result, pieces = block ++ rest → block ≠ [] →
      ¬ StageFits enabled final separator stage bound (taken ++ block) rest result := by
  induction pieces generalizing taken with
  | nil =>
      intro block rest result whole nonempty
      exact absurd (List.append_eq_nil_iff.1 whole.symm).1 nonempty
  | cons piece pieces ih =>
      intro block rest result whole nonempty fits
      obtain ⟨first, further, rfl⟩ := List.exists_cons_of_ne_nil nonempty
      simp only [List.cons_append, List.cons.injEq] at whole
      obtain ⟨rfl, whole⟩ := whole
      have unfit : ∀ now, ¬ StageFits enabled final separator stage bound (taken ++ [piece])
          pieces now := by
        intro now fitsNow
        rw [dealStage_of_fits fitsNow] at nothing
        contradiction
      rw [dealStage_of_unfit unfit] at nothing
      cases further with
      | nil =>
          simp only [List.nil_append] at whole
          exact unfit result (whole ▸ fits)
      | cons second further =>
          exact ih nothing _ _ result whole (by simp) (by simpa using fits)

end PathPattern.Commitment
