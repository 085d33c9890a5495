import PathPattern.Proofs.Commitment.Choice
import PathPattern.Proofs.Cut.Fitting

namespace PathPattern.Cut

open Commitment (Bound Plain RunFits Stage StageFits deal dealStage dealStages remember spread
  stages)

variable {separator : Text} {bound known : Bound} {key : Text} {run rest segments : List Segment}
  {block pieces left : List Text} {blocks : List (List Text)}

/-- Blocks that fit segments and have all the pieces. -/
def FitsWhole (separator : Text) (bound : Bound) (segments : List Segment) (pieces : List Text)
    (blocks : List (List Text)) : Prop :=
  Fits separator bound segments blocks ∧ blocks.flatten = pieces

namespace Earliest

theorem prepend_run {later : List Stage} (plain : Plain run)
    (dealt : RunFits true later.isEmpty run pieces bound (known, left))
    (earliest : Earliest (spread later) (FitsWhole separator known (spread later) left) blocks) :
    ∃ all, Earliest (run ++ spread later) (FitsWhole separator bound (run ++ spread later) pieces)
        all ∧
      learned separator bound (run ++ spread later) all =
        learned separator known (spread later) blocks := by
  obtain ⟨dealtRun, _⟩ := dealt
  have dealtAfter := dealtRun
  rw [← Commitment.isEmpty_spread] at dealtAfter
  obtain ⟨fits, whole⟩ := earliest.allowed
  obtain ⟨taken, divided, fitsAll, same⟩ := fits_of_dealRun plain dealtAfter fits
  have size := Commitment.length_of_dealRun dealtRun
  rw [divided, List.length_append] at size
  refine ⟨singly taken ++ blocks, ⟨⟨fitsAll, by simp [whole, divided]⟩, ?_⟩, same⟩
  intro other allowed
  obtain ⟨fitsOther, wholeOther⟩ := allowed
  obtain ⟨first, others, after, rfl, sizeOther, fitsLater, dealtOther, _⟩ :=
    runFits_of_fits plain fitsOther
  rw [List.flatten_append, flatten_singly] at wholeOther
  rw [wholeOther, dealtRun] at dealtOther
  simp only [Option.some.injEq, Prod.mk.injEq] at dealtOther
  obtain ⟨rfl, sameLeft⟩ := dealtOther
  rw [lengths_run plain sizeOther, lengths_run plain (by omega)]
  exact earliest.least others ⟨fitsLater, sameLeft.symm⟩

theorem prepend_wildcard (nonempty : block ≠ [])
    (earliest : Earliest rest (FitsWhole separator
      (remember true (some key) (separator.intercalate block) bound) rest left) blocks)
    (least : ∀ other others later, block ++ left = other ++ others → other ≠ [] →
      FitsWhole separator (remember true (some key) (separator.intercalate other) bound) rest
        others later → block.length ≤ other.length) :
    Earliest (.wildcard key :: rest)
      (FitsWhole separator bound (.wildcard key :: rest) (block ++ left)) (block :: blocks) := by
  obtain ⟨fits, whole⟩ := earliest.allowed
  refine ⟨⟨fits_cons_wildcard.2 ⟨block, blocks, rfl, nonempty, fits⟩, by simp [whole]⟩, ?_⟩
  intro other allowed
  obtain ⟨fitsOther, wholeOther⟩ := allowed
  obtain ⟨first, others, rfl, someFirst, fitsOthers⟩ := fits_cons_wildcard.1 fitsOther
  rw [List.flatten_cons] at wholeOther
  have shorter := least first others.flatten others wholeOther.symm someFirst ⟨fitsOthers, rfl⟩
  simp only [lengths, Segment.isWildcard, if_true]
  intro before
  rcases List.cons_lex_cons_iff.1 before with less | ⟨equal, beforeRest⟩
  · omega
  · obtain ⟨rfl, sameLeft⟩ := List.append_inj wholeOther equal
    exact earliest.least others ⟨fitsOthers, sameLeft⟩ beforeRest

end Earliest

/-- What stages deal is the earliest of all that fits.  The blocks are put together from the
back: a run adds blocks of one piece, and a wildcard the shortest block that its stage allows. -/
theorem earliest_of_dealStages {later : List Stage} (plain : ∀ stage ∈ later, Plain stage.run)
    (ended : later = [] → pieces = [])
    (dealt : dealStages true separator later pieces bound = some known) :
    ∃ blocks, Earliest (spread later) (FitsWhole separator bound (spread later) pieces) blocks ∧
      learned separator bound (spread later) blocks = known := by
  induction later generalizing pieces bound with
  | nil =>
      simp only [dealStages, Option.some.injEq] at dealt
      refine ⟨[], ⟨⟨trivial, (ended rfl).symm⟩, ?_⟩, dealt⟩
      intro other _
      simp [lengths, spread]
  | cons stage later ih =>
      obtain ⟨plainRun, plainLater⟩ := List.forall_mem_cons.1 plain
      rw [Commitment.dealStages_cons, Option.bind_eq_some_iff] at dealt
      obtain ⟨⟨now, left⟩, chosen, dealtLater⟩ := dealt
      obtain ⟨block, behind, rfl, nonempty, fits, least⟩ :=
        Commitment.exists_least_of_dealStage chosen
      have endedLater (none : later = []) : left = [] := by
        rw [← List.isEmpty_iff, fits.2, none, List.isEmpty_nil]
      obtain ⟨blocks, earliest, same⟩ := ih plainLater endedLater dealtLater
      obtain ⟨all, earliestAll, sameAll⟩ := earliest.prepend_run plainRun fits
      refine ⟨block :: all, earliestAll.prepend_wildcard nonempty ?_, ?_⟩
      · intro other others laterBlocks whole someOther allowed
        obtain ⟨fitsOther, rfl⟩ := allowed
        obtain ⟨taken, last, after, rfl, _, _, fitsRun⟩ := runFits_of_fits plainRun fitsOther
        rw [List.flatten_append, flatten_singly] at whole
        exact least other _ (after, last.flatten) whole someOther fitsRun
      · rw [spread, learned_cons, ← same, ← sameAll]
        rfl

theorem earliest_of_deal (dealt : deal true separator segments pieces = some known) :
    ∃ blocks, Earliest segments (FitsWhole separator [] segments pieces) blocks ∧
      learned separator [] segments blocks = known := by
  have nonempty : segments ≠ [] := by
    intro empty
    simp [deal, empty] at dealt
  have whole := Commitment.spread_stages segments
  have plain := Commitment.plain_stages segments
  by_cases fits : ∃ now, RunFits true (stages segments).2.isEmpty (stages segments).1 pieces [] now
  · obtain ⟨⟨now, left⟩, fitsNow⟩ := fits
    rw [Commitment.deal_of_fits nonempty fitsNow] at dealt
    have ended (none : (stages segments).2 = []) : left = [] := by
      rw [← List.isEmpty_iff, fitsNow.2, none, List.isEmpty_nil]
    obtain ⟨blocks, earliest, same⟩ := earliest_of_dealStages
      (fun stage member => Commitment.plain_run_of_stages member) ended dealt
    obtain ⟨all, earliestAll, sameAll⟩ := earliest.prepend_run plain fitsNow
    rw [whole] at earliestAll sameAll
    exact ⟨all, earliestAll, sameAll.trans same⟩
  · rw [Commitment.deal_of_unfit (not_exists.1 fits)] at dealt
    contradiction

end PathPattern.Cut
