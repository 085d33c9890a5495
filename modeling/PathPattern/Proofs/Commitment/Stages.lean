import PathPattern.Captures.Basic
import PathPattern.Commitment

namespace PathPattern.Commitment

/-- The segments that stages stand for. -/
def spread : List Stage → List Segment
  | [] => []
  | stage :: rest => .wildcard stage.key :: (stage.run ++ spread rest)

def Plain (run : List Segment) : Prop := ∀ segment ∈ run, segment.isWildcard = false

theorem lookup_remember_of_ne {enabled : Bool} {key? : Option Text} {key : Text}
    (other : key? ≠ some key) (text : Text) (bound : Bound) :
    (remember enabled key? text bound).lookup key = bound.lookup key := by
  cases key? with
  | none => rfl
  | some own =>
      have differs : key ≠ own := fun same => other (congrArg some same.symm)
      cases enabled <;> simp [remember, Captures.lookup_cons, differs]

theorem lookup_remember_self (key text : Text) (bound : Bound) :
    (remember true (some key) text bound).lookup key = some text := by
  simp [remember]

theorem stages_cons_plain {segment : Segment} (rest : List Segment)
    (plain : segment.isWildcard = false) :
    stages (segment :: rest) = (segment :: (stages rest).1, (stages rest).2) := by
  cases segment with
  | wildcard key => simp [Segment.isWildcard] at plain
  | _ => rfl

theorem spread_stages (segments : List Segment) :
    (stages segments).1 ++ spread (stages segments).2 = segments := by
  induction segments with
  | nil => rfl
  | cons segment rest ih =>
      cases segment <;> simp only [stages, spread, List.nil_append, List.cons_append, ih]

theorem plain_stages (segments : List Segment) : Plain (stages segments).1 := by
  induction segments with
  | nil => simp [stages, Plain]
  | cons segment rest ih =>
      cases segment with
      | wildcard key => simp [stages, Plain]
      | _ => simpa [stages, Plain, Segment.isWildcard] using ih

theorem plain_run_of_stages {segments : List Segment} {stage : Stage}
    (member : stage ∈ (stages segments).2) : Plain stage.run := by
  induction segments with
  | nil => simp [stages] at member
  | cons segment rest ih =>
      cases segment with
      | wildcard key =>
          rcases List.mem_cons.1 member with rfl | later
          · exact plain_stages rest
          · exact ih later
      | _ => exact ih member

theorem spread_eq_nil_iff {stages : List Stage} : spread stages = [] ↔ stages = [] := by
  cases stages <;> simp [spread]

theorem dealRun_cons_eq_some_iff {enabled final : Bool} {segment : Segment}
    {rest : List Segment} {pieces : List Text} {bound : Bound} {result : Bound × List Text} :
    dealRun enabled final (segment :: rest) pieces bound = some result ↔
      ∃ piece others, pieces = piece :: others ∧
        accepts bound (final && rest.isEmpty) piece segment = true ∧
        dealRun enabled final rest others (remember enabled segment.key? piece bound) =
          some result := by
  cases pieces with
  | nil => simp [dealRun]
  | cons piece others =>
      simp only [dealRun, Option.ite_none_right_eq_some]
      constructor
      · rintro ⟨accepted, dealt⟩
        exact ⟨piece, others, rfl, accepted, dealt⟩
      · rintro ⟨_, _, same, accepted, dealt⟩
        obtain ⟨rfl, rfl⟩ := List.cons.inj same
        exact ⟨accepted, dealt⟩

theorem exists_taken_of_dealRun {enabled final : Bool} {run : List Segment}
    {pieces left : List Text} {bound after : Bound}
    (dealt : dealRun enabled final run pieces bound = some (after, left)) :
    ∃ taken, pieces = taken ++ left ∧ taken.length = run.length := by
  induction run generalizing pieces bound with
  | nil =>
      simp only [dealRun, Option.some.injEq, Prod.mk.injEq] at dealt
      exact ⟨[], dealt.2, rfl⟩
  | cons segment rest ih =>
      obtain ⟨piece, others, rfl, _, dealtRest⟩ := dealRun_cons_eq_some_iff.1 dealt
      obtain ⟨taken, divided, size⟩ := ih dealtRest
      exact ⟨piece :: taken, by simp [divided], by simp [size]⟩

theorem length_of_dealRun {enabled final : Bool} {run : List Segment} {pieces left : List Text}
    {bound after : Bound} (dealt : dealRun enabled final run pieces bound = some (after, left)) :
    pieces.length = run.length + left.length := by
  obtain ⟨taken, divided, size⟩ := exists_taken_of_dealRun dealt
  rw [divided, List.length_append, size]

/-- A run can be dealt and leaves a piece for the wildcard behind it, or none if no
wildcard is behind it. -/
def RunFits (enabled final : Bool) (run : List Segment) (pieces : List Text) (bound : Bound)
    (dealt : Bound × List Text) : Prop :=
  dealRun enabled final run pieces bound = some dealt ∧ dealt.2.isEmpty = final

section Stage

variable {enabled final : Bool} {separator piece : Text} {stage : Stage} {bound : Bound}
  {taken pieces : List Text}

theorem dealStage_of_fits {dealt : Bound × List Text}
    (fits : RunFits enabled final stage.run pieces
      (remember enabled (some stage.key) (separator.intercalate (taken ++ [piece])) bound) dealt) :
    dealStage enabled final separator stage bound taken (piece :: pieces) = some dealt := by
  simp only [dealStage, fits.1, fits.2, if_true]

theorem dealStage_of_unfit
    (unfit : ∀ dealt, ¬ RunFits enabled final stage.run pieces
      (remember enabled (some stage.key) (separator.intercalate (taken ++ [piece])) bound) dealt) :
    dealStage enabled final separator stage bound taken (piece :: pieces) =
      dealStage enabled final separator stage bound (taken ++ [piece]) pieces := by
  simp only [dealStage]
  split
  · next after left dealt => exact if_neg fun fits => unfit (after, left) ⟨dealt, fits⟩
  · rfl

/-- A wildcard takes a piece and leaves one to the next wildcard, so some pieces are too
few for a stage. -/
theorem dealStage_of_short
    (short : pieces.length ≤ stage.run.length + (!final).toNat) :
    dealStage enabled final separator stage bound taken pieces = none := by
  induction pieces generalizing taken with
  | nil => rfl
  | cons piece pieces ih =>
      simp only [List.length_cons] at short
      rw [dealStage_of_unfit, ih (by omega)]
      intro dealtRun runFits
      obtain ⟨after, left⟩ := dealtRun
      obtain ⟨dealt, fits⟩ := runFits
      have size := length_of_dealRun dealt
      cases final with
      | true =>
          simp only [Bool.not_true, Bool.toNat_false] at short
          omega
      | false =>
          have positive : 0 < left.length :=
            List.length_pos_iff.2 (List.isEmpty_eq_false_iff.1 fits)
          simp only [Bool.not_false, Bool.toNat_true] at short
          omega

theorem dealStage_terminal (noRun : stage.run = []) (more : pieces ≠ []) :
    dealStage enabled true separator stage bound taken pieces =
      some (remember enabled (some stage.key) (separator.intercalate (taken ++ pieces)) bound,
        []) := by
  induction pieces generalizing taken with
  | nil => exact absurd rfl more
  | cons piece pieces ih =>
      cases pieces with
      | nil => exact dealStage_of_fits ⟨by simp only [noRun, dealRun], rfl⟩
      | cons next pieces =>
          rw [dealStage_of_unfit, ih (by simp), List.append_assoc, List.singleton_append]
          intro dealt runFits
          obtain ⟨run, fits⟩ := runFits
          simp only [noRun, dealRun, Option.some.injEq] at run
          simp [← run] at fits

theorem dealStages_cons (enabled : Bool) (separator : Text) (stage : Stage) (rest : List Stage)
    (pieces : List Text) (bound : Bound) :
    dealStages enabled separator (stage :: rest) pieces bound =
      (dealStage enabled rest.isEmpty separator stage bound [] pieces).bind fun dealt =>
        dealStages enabled separator rest dealt.2 dealt.1 := by
  cases rest with
  | nil =>
      simp only [dealStages, List.isEmpty_iff, List.isEmpty_nil]
      by_cases noRun : stage.run = []
      · by_cases more : pieces = []
        · simp [noRun, more, dealStage]
        · simp [noRun, more, dealStage_terminal]
      · simp only [noRun, if_false, Option.map_eq_bind]
        rfl
  | cons next rest => rfl

end Stage

theorem isEmpty_append (run after : List Segment) :
    (run ++ after).isEmpty = (after.isEmpty && run.isEmpty) := by
  cases run <;> simp

theorem isEmpty_spread (stages : List Stage) : (spread stages).isEmpty = stages.isEmpty := by
  cases stages <;> rfl

section Deal

variable {enabled : Bool} {separator : Text} {segments : List Segment} {pieces left : List Text}
  {bound : Bound}

theorem deal_of_fits (nonempty : segments ≠ [])
    (fits : RunFits enabled (stages segments).2.isEmpty (stages segments).1 pieces []
      (bound, left)) :
    deal enabled separator segments pieces =
      dealStages enabled separator (stages segments).2 left bound := by
  simp only [deal, List.isEmpty_iff, nonempty, if_false, fits.1, fits.2, if_true]

theorem deal_of_unfit
    (unfit : ∀ dealt, ¬ RunFits enabled (stages segments).2.isEmpty (stages segments).1 pieces []
      dealt) :
    deal enabled separator segments pieces = none := by
  simp only [deal]
  split
  · rfl
  · split
    · rfl
    · next bound left dealt => exact if_neg fun fits => unfit (bound, left) ⟨dealt, fits⟩

end Deal

end PathPattern.Commitment
