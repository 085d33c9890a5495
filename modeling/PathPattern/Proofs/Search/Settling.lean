import PathPattern.Proofs.Commitment.Stages
import PathPattern.Proofs.Search.Steps
import PathPattern.Search.Run

namespace PathPattern.Search

/-! # Where a search settles

A search settles on bound texts, or on no match, within a number of steps.  Two facts
about a run of segments carry every later argument: a run that can be dealt is passed
in as many steps as it has segments, and a run that cannot be dealt leads back to
where the search falls back to.
-/

open Commitment (Bound Plain RunFits dealRun)

variable {search : Search} {trail : Trail} {run after : List Segment}
  {pieces left : List Text} {bound : Bound} {result : Option Bound} {state next : State}
  {steps : Nat}

theorem run_of_nonempty (nonempty : search.segments ≠ []) :
    search.run = search.runFor search.budget search.initial := by
  simp [run, nonempty]

theorem run_of_empty (empty : search.segments = []) : search.run = ⟨[], some .failed⟩ := by
  simp [run, empty]

/-- A verdict that says what a result says: the bindings of a match read the texts. -/
def Verdict.Yields (input : Text) : Verdict → Option Bound → Prop
  | .matched bindings, some bound => bindings.texts input = bound.reverse
  | .failed, none => True
  | _, _ => False

theorem Verdict.Yields.ne_strayed {input : Text} {verdict : Verdict}
    (yields : verdict.Yields input result) : verdict ≠ .strayed := by
  rintro rfl
  cases result <;> exact yields

/-- A search that is given so many steps, or more, ends with a result. -/
def Settles (search : Search) (steps : Nat) (state : State) (result : Option Bound) : Prop :=
  ∃ verdict : Verdict, verdict.Yields search.input result ∧
    ∀ limit, steps ≤ limit → (search.runFor limit state).verdict = some verdict

namespace Settles

theorem mono {more : Nat} (settles : Settles search steps state result) (enough : steps ≤ more) :
    Settles search more state result := by
  obtain ⟨verdict, yields, ends⟩ := settles
  exact ⟨verdict, yields, fun limit within => ends limit (Nat.le_trans enough within)⟩

theorem of_stop {verdict : Verdict} (stop : search.step state = .stop verdict)
    (yields : verdict.Yields search.input result) : Settles search 1 state result := by
  refine ⟨verdict, yields, fun limit within => ?_⟩
  obtain ⟨limit, rfl⟩ : ∃ less, limit = less + 1 := ⟨limit - 1, by omega⟩
  simp only [runFor, stop]

theorem of_matched (stop : search.step state = .stop (.matched (search.bindingsAfter trail)))
    (covers : Covers search trail) :
    Settles search 1 state (some (search.boundAfter trail)) :=
  of_stop stop covers.reads.texts

theorem of_failed (stop : search.step state = .stop .failed) : Settles search 1 state none :=
  of_stop stop trivial

theorem of_advance (step : search.step state = .advance next)
    (settles : Settles search steps next result) : Settles search (steps + 1) state result := by
  obtain ⟨verdict, yields, ends⟩ := settles
  refine ⟨verdict, yields, fun limit within => ?_⟩
  obtain ⟨limit, rfl⟩ : ∃ less, limit = less + 1 := ⟨limit - 1, by omega⟩
  simp only [runFor, step, ends limit (by omega)]

theorem of_grow {growth : Growth} (step : search.step state = .grow growth next)
    (settles : Settles search steps next result) : Settles search (steps + 1) state result := by
  obtain ⟨verdict, yields, ends⟩ := settles
  refine ⟨verdict, yields, fun limit within => ?_⟩
  obtain ⟨limit, rfl⟩ : ∃ less, limit = less + 1 := ⟨limit - 1, by omega⟩
  simp only [runFor, step, Run.afterGrowth, ends limit (by omega)]

end Settles

/-- A search that falls back from a state ends with a result. -/
def Returns (search : Search) (steps : Nat) (state : State) (result : Option Bound) : Prop :=
  match resumed? state with
  | none => result = none
  | some resumed => Settles search steps resumed result

theorem Returns.of_resumed (back : resumed? state = some next)
    (settles : Settles search steps next result) : Returns search steps state result := by
  simpa only [Returns, back] using settles

theorem Returns.settles (returns : Returns search steps state result)
    (refused : search.step state = fallBack state) : Settles search (steps + 1) state result := by
  cases back : resumed? state with
  | none =>
      simp only [Returns, back] at returns
      subst returns
      exact (Settles.of_failed (refused.trans (fallBack_of_none back))).mono (by omega)
  | some resumed =>
      simp only [Returns, back] at returns
      obtain ⟨growth, falls⟩ := fallBack_of_some back
      exact Settles.of_grow (refused.trans falls) returns

theorem Progress.settles_of_dealt
    (progress : Progress search trail [] (run ++ after) pieces) (plain : Plain run)
    (nonempty : run ++ after ≠ [])
    (runFits : RunFits search.initial.bindings.enabled after.isEmpty run pieces
      (search.boundAfter trail) (bound, left))
    (ended : after = [] → result = some bound)
    (onward : ∀ later, search.boundAfter later = bound → Progress search later [] after left →
      Settles search steps (search.stateAfter later []) result) :
    Settles search (steps + run.length) (search.stateAfter trail []) result := by
  obtain ⟨dealt, fits⟩ := runFits
  induction run generalizing trail pieces with
  | nil =>
      simp only [dealRun, Option.some.injEq, Prod.mk.injEq] at dealt
      obtain ⟨rfl, rfl⟩ := dealt
      exact onward trail rfl progress
  | cons segment rest ih =>
      obtain ⟨plainSegment, plainRest⟩ := List.forall_mem_cons.1 plain
      obtain ⟨piece, pieces, rfl, accepted, dealtRest⟩ :=
        Commitment.dealRun_cons_eq_some_iff.1 dealt
      by_cases final : rest ++ after = []
      · obtain ⟨rfl, rfl⟩ := List.append_eq_nil_iff.1 final
        simp only [dealRun, Option.some.injEq, Prod.mk.injEq] at dealtRest
        obtain ⟨rfl, rfl⟩ := dealtRest
        obtain rfl : pieces = [] := by simpa using fits
        have covers : Covers search ((segment, [piece]) :: trail) :=
          progress.covers_cons (List.append_nil [piece]).symm (by simp)
        have matched := Settles.of_matched (step_last progress plainSegment accepted) covers
        rw [boundAfter_single, ← ended rfl] at matched
        exact matched.mono (by simp)
      · obtain ⟨following, further, shape⟩ := List.exists_cons_of_ne_nil final
        have more : pieces ≠ [] := by
          intro empty
          subst empty
          cases rest with
          | nil =>
              simp only [dealRun, Option.some.injEq, Prod.mk.injEq] at dealtRest
              rw [← dealtRest.2] at fits
              exact final (by simpa using fits.symm)
          | cons _ _ => simp [dealRun] at dealtRest
        rw [← Commitment.isEmpty_append, List.isEmpty_eq_false_iff.2 final] at accepted
        have progressed := progress.advance more
        have inner := ih progressed plainRest final (by rwa [← boundAfter_single] at dealtRest)
        rw [List.cons_append, shape] at progress
        exact Settles.of_advance (step_taken progress plainSegment more accepted) inner

/-- A run that cannot be dealt leads back, unless the input ends before the last
segment; there the search fails, and so must what it would have fallen back to. -/
theorem Progress.settles_of_refused
    (progress : Progress search trail [] (run ++ after) pieces) (plain : Plain run)
    (nonempty : run ++ after ≠ [])
    (unfit : ∀ dealt, ¬ RunFits search.initial.bindings.enabled after.isEmpty run pieces
      (search.boundAfter trail) dealt)
    (short : pieces.length < run.length + (!after.isEmpty).toNat → result = none)
    (returns : Returns search steps (search.stateAfter trail []) result) :
    Settles search (steps + run.length) (search.stateAfter trail []) result := by
  induction run generalizing trail pieces with
  | nil =>
      -- An empty run fits wherever some segment is behind it.
      have notLast : after ≠ [] := nonempty
      have fits : pieces.isEmpty = after.isEmpty := by
        rw [List.isEmpty_eq_false_iff.2 progress.more, List.isEmpty_eq_false_iff.2 notLast]
      exact absurd ⟨rfl, fits⟩ (unfit (_, _))
  | cons segment rest ih =>
      obtain ⟨plainSegment, plainRest⟩ := List.forall_mem_cons.1 plain
      cases pieces with
      | nil => exact absurd rfl progress.more
      | cons piece pieces =>
          by_cases exhausted : pieces = [] ∧ rest ++ after ≠ []
          · obtain ⟨rfl, inner⟩ := exhausted
            obtain ⟨following, further, shape⟩ := List.exists_cons_of_ne_nil inner
            have tooFew : [piece].length < (segment :: rest).length + (!after.isEmpty).toNat := by
              cases rest <;> cases after <;> simp_all
            rw [List.cons_append, shape] at progress
            rw [short tooFew]
            exact (Settles.of_failed (step_exhausted progress)).mono (by simp; omega)
          · by_cases taken : Commitment.accepts (search.boundAfter trail) (rest ++ after).isEmpty
                piece segment = true ∧ pieces.isEmpty = (rest ++ after).isEmpty
            · obtain ⟨accepted, fits⟩ := taken
              have unfitRest := unfit
              simp only [RunFits, dealRun, ← Commitment.isEmpty_append, accepted,
                if_true] at unfitRest
              by_cases final : rest ++ after = []
              · obtain ⟨rfl, rfl⟩ := List.append_eq_nil_iff.1 final
                exact absurd ⟨rfl, fits⟩ (unfitRest (_, _))
              · have more : pieces ≠ [] := fun empty => exhausted ⟨empty, final⟩
                have inner := ih (progress.advance more) plainRest final
                  (by rwa [List.nil_append, boundAfter_single])
                  (fun fewer => short (by simp only [List.length_cons]; omega))
                  (by rwa [Returns, List.nil_append, resumed?_plain _ plainSegment])
                obtain ⟨following, further, shape⟩ := List.exists_cons_of_ne_nil final
                rw [List.isEmpty_eq_false_iff.2 final] at accepted
                rw [List.cons_append, shape] at progress
                exact Settles.of_advance (step_taken progress plainSegment more accepted) inner
            · have possible : rest ++ after ≠ [] → pieces ≠ [] :=
                fun inner empty => exhausted ⟨empty, inner⟩
              have refused := step_refused progress plainSegment possible taken
              exact (returns.settles refused).mono (by simp)

end PathPattern.Search
