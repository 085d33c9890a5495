import PathPattern.Proofs.Commitment.Stages

namespace PathPattern.Commitment

variable {enabled final : Bool} {separator key : Text} {bound known : Bound}
  {run segments : List Segment} {stage : Stage} {later : List Stage}
  {front pieces taken left rest other : List Text}

theorem dealRun_append (enough : run.length ≤ front.length) (rest : List Text) :
    dealRun enabled final run (front ++ rest) bound =
      (dealRun enabled final run front bound).map fun dealt => (dealt.1, dealt.2 ++ rest) := by
  induction run generalizing front bound with
  | nil => rfl
  | cons segment run ih =>
      cases front with
      | nil => simp at enough
      | cons piece front =>
          rw [List.cons_append, dealRun, dealRun]
          split
          · exact ih (by simpa using enough)
          · rfl

/-- Whether a run fits in front of a wildcard does not depend on what the wildcard takes. -/
theorem exists_runFits_append (enough : run.length ≤ front.length) (more : rest ≠ [])
    (fits : ∃ dealt, RunFits enabled false run (front ++ other) bound dealt) :
    ∃ dealt, RunFits enabled false run (front ++ rest) bound dealt := by
  obtain ⟨dealt, dealtOther, _⟩ := fits
  rw [dealRun_append enough, Option.map_eq_some_iff] at dealtOther
  obtain ⟨⟨now, spare⟩, dealtFront, _⟩ := dealtOther
  exact ⟨(now, spare ++ rest), by rw [dealRun_append enough, dealtFront, Option.map_some],
    by simp [more]⟩

theorem runFits_remainder (fits : RunFits enabled false run pieces bound (known, left)) :
    ∃ front, pieces = front ++ left ∧ front.length = run.length ∧ left ≠ [] ∧
      ∀ rest, rest ≠ [] → RunFits enabled false run (front ++ rest) bound (known, rest) := by
  obtain ⟨dealt, some_left⟩ := fits
  obtain ⟨front, rfl, size⟩ := exists_taken_of_dealRun dealt
  refine ⟨front, rfl, size, List.isEmpty_eq_false_iff.1 some_left, ?_⟩
  intro rest more
  refine ⟨?_, List.isEmpty_eq_false_iff.2 more⟩
  rw [dealRun_append (Nat.le_of_eq size.symm), Option.map_eq_some_iff] at dealt ⊢
  obtain ⟨⟨now, spare⟩, dealtFront, same⟩ := dealt
  simp only [Prod.mk.injEq, List.append_left_eq_self] at same
  exact ⟨(now, spare), dealtFront, by simp [same]⟩

theorem dealStage_remainder
    (dealt : dealStage enabled false separator stage bound taken pieces = some (known, left)) :
    ∃ front, pieces = front ++ left ∧ stage.run.length < front.length ∧ left ≠ [] ∧
      ∀ rest, rest ≠ [] →
        dealStage enabled false separator stage bound taken (front ++ rest) =
          some (known, rest) := by
  induction pieces generalizing taken with
  | nil => simp [dealStage] at dealt
  | cons piece pieces ih =>
      by_cases fits : ∃ now, RunFits enabled false stage.run pieces
          (remember enabled (some stage.key) (separator.intercalate (taken ++ [piece])) bound) now
      · obtain ⟨now, fits⟩ := fits
        obtain rfl : now = (known, left) := Option.some.inj ((dealStage_of_fits fits).symm.trans dealt)
        obtain ⟨front, rfl, size, more, replaced⟩ := runFits_remainder fits
        refine ⟨piece :: front, rfl, by simp [size], more, ?_⟩
        intro rest moreRest
        exact dealStage_of_fits (replaced rest moreRest)
      · rw [dealStage_of_unfit (not_exists.1 fits)] at dealt
        obtain ⟨front, rfl, size, more, replaced⟩ := ih dealt
        refine ⟨piece :: front, rfl, Nat.lt_succ_of_lt size, more, ?_⟩
        intro rest moreRest
        have unfit : ¬ ∃ now, RunFits enabled false stage.run (front ++ rest)
            (remember enabled (some stage.key) (separator.intercalate (taken ++ [piece])) bound)
              now :=
          mt (exists_runFits_append (Nat.le_of_lt size) more) fits
        rw [List.cons_append, dealStage_of_unfit (not_exists.1 unfit)]
        exact replaced rest moreRest

/-- The last wildcard takes what it is left: some pieces in front are dealt for themselves,
and whatever stands behind them is bound to its key, as the last thing. -/
def Remainder (enabled : Bool) (separator key : Text) (outcome : List Text → Option Bound)
    (pieces : List Text) (known : Bound) : Prop :=
  ∃ front rest before, pieces = front ++ rest ∧ rest ≠ [] ∧
    known = remember enabled (some key) (separator.intercalate rest) before ∧
    ∀ other, other ≠ [] → outcome (front ++ other) =
      some (remember enabled (some key) (separator.intercalate other) before)

theorem Remainder.prepend {outcome whole : List Text → Option Bound}
    (remainder : Remainder enabled separator key outcome left known)
    (same : ∀ rest, rest ≠ [] → whole (front ++ rest) = outcome rest) :
    Remainder enabled separator key whole (front ++ left) known := by
  obtain ⟨inner, rest, before, rfl, more, last, replaced⟩ := remainder
  refine ⟨front ++ inner, rest, before, (List.append_assoc _ _ _).symm, more, last, ?_⟩
  intro other moreOther
  rw [List.append_assoc, same _ (by simp [moreOther]), replaced other moreOther]

theorem remainder_of_dealStages
    (dealt : dealStages enabled separator (later ++ [⟨key, []⟩]) pieces bound = some known) :
    Remainder enabled separator key
      (dealStages enabled separator (later ++ [⟨key, []⟩]) · bound) pieces known := by
  induction later generalizing pieces bound with
  | nil =>
      by_cases empty : pieces = []
      · simp [dealStages, empty] at dealt
      · have takesAll (other : List Text) (more : other ≠ []) :
            dealStages enabled separator [⟨key, []⟩] other bound =
              some (remember enabled (some key) (separator.intercalate other) bound) := by
          simp [dealStages, more]
        have last := Option.some.inj (dealt.symm.trans (takesAll pieces empty))
        exact ⟨[], pieces, bound, rfl, empty, last, takesAll⟩
  | cons stage later ih =>
      have someLater : (later ++ [⟨key, []⟩] : List Stage).isEmpty = false := by simp
      have unfolded (pieces : List Text) := dealStages_cons enabled separator stage
        (later ++ [⟨key, []⟩]) pieces bound
      simp only [someLater] at unfolded
      rw [List.cons_append, unfolded, Option.bind_eq_some_iff] at dealt
      obtain ⟨⟨now, left⟩, chosen, dealtLater⟩ := dealt
      obtain ⟨front, rfl, _, _, replaced⟩ := dealStage_remainder chosen
      refine (ih dealtLater).prepend ?_
      intro rest more
      rw [List.cons_append, unfolded, replaced rest more, Option.bind_some]

theorem stages_concat_wildcard (segments : List Segment) (key : Text) :
    stages (segments ++ [.wildcard key]) =
      ((stages segments).1, (stages segments).2 ++ [⟨key, []⟩]) := by
  induction segments with
  | nil => rfl
  | cons segment rest ih =>
      cases segment <;> simp only [List.cons_append, stages, ih]

/-- What is dealt to segments that end with a wildcard depends on the last pieces only
through what the wildcard takes. -/
theorem remainder_of_deal
    (dealt : deal enabled separator (segments ++ [.wildcard key]) pieces = some known) :
    Remainder enabled separator key (deal enabled separator (segments ++ [.wildcard key]))
      pieces known := by
  have nonempty : segments ++ [.wildcard key] ≠ [] := by simp
  have shape := stages_concat_wildcard segments key
  have someStages : (stages (segments ++ [.wildcard key])).2.isEmpty = false := by simp [shape]
  by_cases fits : ∃ now, RunFits enabled (stages (segments ++ [.wildcard key])).2.isEmpty
      (stages (segments ++ [.wildcard key])).1 pieces [] now
  · obtain ⟨⟨now, left⟩, fits⟩ := fits
    rw [deal_of_fits nonempty fits, shape] at dealt
    rw [someStages] at fits
    obtain ⟨front, rfl, _, _, replaced⟩ := runFits_remainder fits
    refine (remainder_of_dealStages dealt).prepend ?_
    intro rest more
    rw [deal_of_fits nonempty (someStages ▸ replaced rest more), shape]
  · rw [deal_of_unfit (not_exists.1 fits)] at dealt
    contradiction

end PathPattern.Commitment
