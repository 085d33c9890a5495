import PathPattern.Pattern
import PathPattern.Proofs.Search.Settling

namespace PathPattern.Search

open Commitment (Bound Plain RunFits Stage dealStage dealStages spread)

variable {search : Search} {trail : Trail} {run after : List Segment} {pieces taken : List Text}
  {key : Text}

theorem Progress.length_ahead_le {ahead : List Segment}
    (progress : Progress search trail taken ahead pieces) :
    ahead.length ≤ search.segments.length := by
  simp only [← progress.segments, List.length_append]
  omega

/-- A search at a wildcard with a run behind it does what its stage does.  The steps
allow every later segment to be offered each of the pieces that are left. -/
theorem Progress.settles_stage
    (progress : Progress search trail taken (.wildcard key :: (run ++ after)) pieces)
    (onward : Bound × List Text → Option Bound)
    (plain : Plain run) (inner : run ++ after ≠ [])
    (ended : after = [] → ∀ bound left, onward (bound, left) = some bound)
    (settles : after ≠ [] → ∀ later left, Progress search later [] after left →
      Settles search (left.length * search.segments.length) (search.stateAfter later [])
        (onward (search.boundAfter later, left))) :
    Settles search (pieces.length * search.segments.length) (search.stateAfter trail taken)
      ((dealStage search.initial.bindings.enabled after.isEmpty search.separator ⟨key, run⟩
        (search.boundAfter trail) taken pieces).bind onward) := by
  have room := progress.length_ahead_le
  simp only [List.length_cons, List.length_append] at room
  obtain ⟨following, further, shape⟩ := List.exists_cons_of_ne_nil inner
  induction pieces generalizing taken with
  | nil => exact absurd rfl progress.more
  | cons piece pieces ih =>
      by_cases more : pieces = []
      -- The wildcard has the last piece, so neither the search nor the stage goes on.
      · subst more
        have tooFew : [piece].length ≤ run.length + (!after.isEmpty).toNat := by
          cases run <;> cases after <;> simp_all
        rw [Commitment.dealStage_of_short tooFew, Option.bind_none]
        rw [shape] at progress
        exact (Settles.of_failed (step_exhausted progress)).mono (by simp; omega)
      · have again := ih (progress.extend more)
        have behind := progress.advance more
        have grown : taken ++ [piece] ≠ [] := by simp
        have back : resumed? (search.stateAfter ((.wildcard key, taken ++ [piece]) :: trail) []) =
            some (search.stateAfter trail (taken ++ [piece])) := resumed?_wildcard key grown
        have enough : pieces.length * search.segments.length + run.length + 1 ≤
            (piece :: pieces).length * search.segments.length := by
          rw [List.length_cons, Nat.succ_mul]
          omega
        rw [shape] at progress
        have step := step_wildcard progress more
        by_cases fits : ∃ dealt, RunFits search.initial.bindings.enabled after.isEmpty run pieces
            (search.boundAfter ((.wildcard key, taken ++ [piece]) :: trail)) dealt
        · obtain ⟨⟨bound, left⟩, dealt⟩ := fits
          rw [Commitment.dealStage_of_fits dealt, Option.bind_some]
          have size := Commitment.length_of_dealRun dealt.1
          have fewer : left.length * search.segments.length ≤
              pieces.length * search.segments.length := Nat.mul_le_mul_right _ (by omega)
          have notLast (some_left : left ≠ []) : after ≠ [] := by
            rw [ne_eq, ← List.isEmpty_iff, ← dealt.2, List.isEmpty_iff]
            exact some_left
          have passed := behind.settles_of_dealt plain inner dealt
            (fun last => ended last bound left) (fun later same onwards => by
              simpa only [same] using settles (notLast onwards.more) later left onwards)
          exact (Settles.of_advance step passed).mono (by omega)
        · have unfit := not_exists.1 fits
          rw [Commitment.dealStage_of_unfit unfit]
          have passed := behind.settles_of_refused plain inner unfit
            (fun short => by rw [Commitment.dealStage_of_short (by simpa using Nat.le_of_lt short),
              Option.bind_none])
            (.of_resumed back again)
          exact (Settles.of_advance step passed).mono enough

theorem Progress.settles_stages {stages : List Stage}
    (progress : Progress search trail [] (spread stages) pieces) (nonempty : stages ≠ [])
    (plain : ∀ stage ∈ stages, Plain stage.run) :
    Settles search (pieces.length * search.segments.length) (search.stateAfter trail [])
      (dealStages search.initial.bindings.enabled search.separator stages pieces
        (search.boundAfter trail)) := by
  induction stages generalizing trail pieces with
  | nil => exact absurd rfl nonempty
  | cons stage rest ih =>
      obtain ⟨plainRun, plainRest⟩ := List.forall_mem_cons.1 plain
      by_cases terminal : stage.run = [] ∧ rest = []
      · obtain ⟨noRun, rfl⟩ := terminal
        simp only [spread, noRun, List.nil_append] at progress
        have covers := progress.covers_cons (List.append_nil pieces).symm progress.more
        have matched := Settles.of_matched (step_terminal progress) covers
        have positive := List.length_pos_iff.2 progress.more
        simp only [dealStages, noRun, List.isEmpty_nil, if_true, List.isEmpty_iff,
          progress.more, if_false]
        exact matched.mono (Nat.mul_pos positive progress.length_ahead_le)
      · have inner : stage.run ++ spread rest ≠ [] := by
          simpa [Commitment.spread_eq_nil_iff] using terminal
        rw [Commitment.dealStages_cons, ← Commitment.isEmpty_spread]
        apply progress.settles_stage _ plainRun inner
        · intro last bound left
          rw [Commitment.spread_eq_nil_iff] at last
          simp only [last, dealStages]
        · intro more later left onwards
          exact ih onwards (fun none => more (by simp [none, spread])) plainRest

section Opening

variable {stages : List Stage}

theorem Progress.settles_of_opening_dealt {bound : Bound} {left : List Text}
    (progress : Progress search [] [] (run ++ spread stages) pieces)
    (nonempty : run ++ spread stages ≠ []) (plainRun : Plain run)
    (plain : ∀ stage ∈ stages, Plain stage.run)
    (fits : RunFits search.initial.bindings.enabled stages.isEmpty run pieces [] (bound, left)) :
    Settles search (pieces.length * search.segments.length) search.initial
      (dealStages search.initial.bindings.enabled search.separator stages left bound) := by
  have size := Commitment.length_of_dealRun fits.1
  have room := Nat.lt_of_lt_of_le (List.length_pos_iff.2 nonempty) progress.length_ahead_le
  have enough : left.length * search.segments.length + run.length ≤
      pieces.length * search.segments.length := by
    have runSteps := Nat.le_mul_of_pos_right run.length room
    rw [size, Nat.add_mul]
    omega
  have noneLeft := fits.2
  rw [← Commitment.isEmpty_spread] at fits
  refine (progress.settles_of_dealt plainRun nonempty fits ?_ ?_).mono enough
  · intro last
    rw [Commitment.spread_eq_nil_iff] at last
    simp only [last, dealStages]
  · intro later same onwards
    have someStages : stages ≠ [] := by
      rw [ne_eq, ← List.isEmpty_iff, ← noneLeft, List.isEmpty_iff]
      exact onwards.more
    simpa only [same] using onwards.settles_stages someStages plain

theorem Progress.settles_of_opening_refused
    (progress : Progress search [] [] (run ++ spread stages) pieces)
    (nonempty : run ++ spread stages ≠ []) (plainRun : Plain run)
    (unfit : ∀ dealt, ¬ RunFits search.initial.bindings.enabled stages.isEmpty run pieces []
      dealt) :
    Settles search (pieces.length * search.segments.length) search.initial none := by
  have room := progress.length_ahead_le
  have enough : 0 + run.length ≤ pieces.length * search.segments.length := by
    have somePieces := Nat.le_mul_of_pos_left search.segments.length
      (List.length_pos_iff.2 progress.more)
    rw [List.length_append] at room
    omega
  rw [← Commitment.isEmpty_spread] at unfit
  have returns : Returns search 0 (search.stateAfter [] []) none := rfl
  exact (progress.settles_of_refused plainRun nonempty unfit (fun _ => rfl) returns).mono enough

end Opening

theorem settles_deal (separated : search.separator ≠ []) (nonempty : search.segments ≠ []) :
    Settles search search.budget search.initial
      (Commitment.deal search.initial.bindings.enabled search.separator search.segments
        (search.input.pieces search.separator)) := by
  have whole := Commitment.spread_stages search.segments
  have plain := Commitment.plain_stages search.segments
  have progress := Progress.initial separated
  rw [← whole] at progress
  by_cases fits : ∃ dealt, RunFits search.initial.bindings.enabled
      (Commitment.stages search.segments).2.isEmpty (Commitment.stages search.segments).1
      (search.input.pieces search.separator) [] dealt
  · obtain ⟨⟨bound, left⟩, dealt⟩ := fits
    rw [Commitment.deal_of_fits nonempty dealt]
    exact progress.settles_of_opening_dealt (by rwa [whole]) plain
      (fun stage member => Commitment.plain_run_of_stages member) dealt
  · rw [Commitment.deal_of_unfit (not_exists.1 fits)]
    exact progress.settles_of_opening_refused (by rwa [whole]) plain (not_exists.1 fits)

theorem captures?_of_settles {result : Option Bound} (nonempty : search.segments ≠ [])
    (settles : Settles search search.budget search.initial result) :
    search.captures? =
      result.map fun bound => if search.capturing then .ofList bound.reverse else {} := by
  obtain ⟨verdict, yields, ends⟩ := settles
  have ended := ends search.budget (Nat.le_refl _)
  simp only [captures?, run_of_nonempty nonempty, ended]
  cases verdict with
  | matched bindings =>
      cases result with
      | none => exact absurd yields not_false
      | some bound => simp only [Option.map_some, Bindings.captures, show _ = _ from yields]
  | failed =>
      cases result with
      | none => rfl
      | some bound => exact absurd yields not_false
  | strayed => exact absurd yields (by cases result <;> exact not_false)

theorem captures?_eq_of_separated (search : Search) (separated : search.separator ≠ []) :
    search.captures? =
      (Commitment.deal search.initial.bindings.enabled search.separator search.segments
        (search.input.pieces search.separator)).map fun bound =>
          if search.capturing then .ofList bound.reverse else {} := by
  by_cases nonempty : search.segments = []
  · simp [captures?, run, nonempty, Commitment.deal]
  · exact captures?_of_settles nonempty (settles_deal separated nonempty)

theorem verdict_of_deal_eq_none (search : Search) (separated : search.separator ≠ [])
    (nothing : Commitment.deal search.initial.bindings.enabled search.separator search.segments
      (search.input.pieces search.separator) = none) :
    search.run.verdict = some .failed := by
  by_cases nonempty : search.segments = []
  · rw [run_of_empty nonempty]
  · have settles := settles_deal separated nonempty
    rw [nothing] at settles
    obtain ⟨verdict, yields, ends⟩ := settles
    have ended := ends search.budget (Nat.le_refl _)
    simp only [run_of_nonempty nonempty, ended, Option.some.injEq]
    cases verdict with
    | failed => rfl
    | matched bindings => exact absurd yields not_false
    | strayed => exact absurd yields not_false

/-- The texts of a match are what is dealt. -/
theorem deal_of_matched {bindings : Bindings} (separated : search.separator ≠ [])
    (matched : search.run.verdict = some (.matched bindings)) :
    Commitment.deal search.initial.bindings.enabled search.separator search.segments
      (search.input.pieces search.separator) = some (bindings.texts search.input).reverse := by
  by_cases nonempty : search.segments = []
  · rw [run_of_empty nonempty] at matched
    simp at matched
  · obtain ⟨verdict, yields, ends⟩ := settles_deal separated nonempty
    rw [run_of_nonempty nonempty, ends search.budget (Nat.le_refl _)] at matched
    obtain rfl := Option.some.inj matched
    cases dealt : Commitment.deal search.initial.bindings.enabled search.separator search.segments
        (search.input.pieces search.separator) with
    | none =>
        rw [dealt] at yields
        exact yields.elim
    | some bound =>
        rw [dealt] at yields
        rw [show bindings.texts search.input = bound.reverse from yields, List.reverse_reverse]

/-- A search by offsets refines committed choice on the pieces of its input: it captures
what is dealt, each key with its latest text, and fails if nothing can be dealt. -/
theorem captures?_eq_deal (settings : Settings) (segments : List Segment) (input : Text)
    (capturing : Bool) (separated : settings.separator ≠ []) :
    let search := Search.of settings segments input capturing
    let dealt := Commitment.deal (capturing || settings.agreement) settings.separator segments
      (input.pieces settings.separator)
    search.captures? =
        dealt.map (fun bound => if capturing then .ofList bound.reverse else {}) ∧
      (dealt = none → search.run.verdict = some .failed) ∧
      ∀ captures, search.captures? = some captures →
        ∃ bound, dealt = some bound ∧
          ∀ key, captures.get? key = if capturing then bound.lookup key else none := by
  intro search dealt
  have captured := captures?_eq_of_separated search separated
  refine ⟨captured, verdict_of_deal_eq_none search separated, ?_⟩
  intro captures found
  rw [captured, Option.map_eq_some_iff] at found
  obtain ⟨bound, someBound, rfl⟩ := found
  refine ⟨bound, someBound, fun key => ?_⟩
  change (if capturing then Captures.ofList bound.reverse else {}).get? key = _
  split
  · rw [Captures.get?_ofList, List.reverse_reverse]
  · rfl

/-- The wildcard grows twice: the first piece behind it differs from what the key has,
and the second leaves a piece over. -/
theorem captures?_eq_deal_growing :
    ['/', '/'] ≠ [] ∧
      (Search.of { separator := ['/', '/'] }
        [.parameter ['x'] false, .wildcard ['w'], .parameter ['x'] true]
        "1//b//2//1//1".toList true).captures? =
          some ⟨[(['x'], ['1']), (['w'], "b//2//1".toList)]⟩ := by
  have refined := captures?_eq_deal { separator := ['/', '/'] }
    [.parameter ['x'] false, .wildcard ['w'], .parameter ['x'] true] "1//b//2//1//1".toList true
    (by decide)
  exact ⟨by decide, refined.1.trans (by decide)⟩

end PathPattern.Search
