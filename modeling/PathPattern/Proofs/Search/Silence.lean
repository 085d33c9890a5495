import PathPattern.Proofs.Captures.Stack
import PathPattern.Proofs.Search.Exactness

namespace PathPattern

/-! # Searches that bind nothing

Where no parameter must agree, bindings decide nothing.  Such a search can be silenced:
with its bindings left out it comes through the same states, grows the same wildcards and
ends with the same verdict.  So it does not matter to a search whether captures are
wanted, unless a comparison depends on it.
-/

namespace Segment

variable {segment : Segment}

@[simp] theorem record_silent (segment : Segment) (span : Span) :
    segment.record .silent span = .silent := by
  cases segment <;> rfl

theorem accepts_eq_of_unchecked (unchecked : ∀ key, segment ≠ .parameter key true)
    (bindings other : Bindings) (input value : Text) (last : Bool) :
    segment.accepts bindings input value last = segment.accepts other input value last := by
  cases segment with
  | literal text => rfl
  | wildcard key => rfl
  | parameter key mustAgree =>
      cases mustAgree with
      | false => rfl
      | true => exact absurd rfl (unchecked key)

end Segment

namespace Search

variable {search : Search} {state : State} {segment : Segment}

def State.silenced (state : State) : State :=
  { state with
    fallback := state.fallback.map fun place => { place with bound := 0 }
    bindings := .silent }

def Verdict.silenced : Verdict → Verdict
  | .matched _ => .matched .silent
  | .failed => .failed
  | .strayed => .strayed

def Step.silenced : Step → Step
  | .advance state => .advance state.silenced
  | .grow growth state => .grow growth state.silenced
  | .stop verdict => .stop verdict.silenced

def Run.silenced (run : Run) : Run :=
  { run with verdict := run.verdict.map Verdict.silenced }

theorem takeRun_silenced (search : Search) (state : State) (segment : Segment) (stop : Nat) :
    search.takeRun state.silenced segment stop = (search.takeRun state segment stop).silenced := by
  have last : search.atLast state.silenced = search.atLast state := rfl
  simp only [takeRun, last]
  split
  · simp [Step.silenced, Verdict.silenced, State.silenced]
  · cases wild : segment.isWildcard <;>
      simp [Step.silenced, State.silenced]

theorem fallBack_silenced (state : State) :
    fallBack state.silenced = (fallBack state).silenced := by
  cases found : state.fallback <;>
    simp [fallBack, State.silenced, found, Step.silenced, Verdict.silenced]

theorem step_silenced (unchecked : Unchecked search.segments) (state : State) :
    search.step state.silenced = (search.step state).silenced := by
  have sameIndex : state.silenced.index = state.index := rfl
  have sameOffset : state.silenced.offset = state.offset := rfl
  have sameLast : search.atLast state.silenced = search.atLast state := rfl
  have sameBoundary (segment : Segment) :
      search.boundary? state.silenced segment = search.boundary? state segment := rfl
  simp only [step, sameIndex, sameOffset, sameLast, sameBoundary]
  cases here : search.segments[state.index]? with
  | none => rfl
  | some segment =>
      -- Only a parameter that must agree would look at what is bound.
      have free (key : Text) : segment ≠ .parameter key true := by
        rintro rfl
        have absurdity := unchecked key true (List.mem_of_getElem? here)
        contradiction
      simp only [Segment.accepts_eq_of_unchecked free state.silenced.bindings state.bindings]
      cases search.boundary? state segment with
      | none => rfl
      | some boundary =>
          simp only []
          split
          · rfl
          · cases Span.read? ⟨state.offset, boundary.stop⟩ search.input with
            | none => rfl
            | some value =>
                simp only []
                split
                · exact search.takeRun_silenced state segment boundary.stop
                · exact fallBack_silenced state

theorem runFor_silenced (unchecked : Unchecked search.segments) (steps : Nat) (state : State) :
    search.runFor steps state.silenced = (search.runFor steps state).silenced := by
  induction steps generalizing state with
  | zero => rfl
  | succ steps ih =>
      simp only [runFor, step_silenced unchecked]
      cases search.step state with
      | advance next => exact ih next
      | grow growth next => exact congrArg (Run.afterGrowth growth) (ih next)
      | stop verdict => rfl

/-- The same search if no captures are wanted. -/
def quiet (search : Search) : Search := { search with capturing := false }

theorem runFor_quiet (search : Search) (steps : Nat) (state : State) :
    search.quiet.runFor steps state = search.runFor steps state := by
  induction steps generalizing state with
  | zero => rfl
  | succ steps ih =>
      have same : search.quiet.step state = search.step state := rfl
      simp only [runFor, same, ih]

theorem run_quiet (search : Search)
    (kept : search.comparing = true ∨ Unchecked search.segments) :
    search.quiet.run.silenced = search.run.silenced := by
  have sameBudget : search.quiet.budget = search.budget := rfl
  have sameSegments : search.quiet.segments = search.segments := rfl
  simp only [run, sameSegments]
  split
  · rfl
  · rw [sameBudget, runFor_quiet]
    rcases kept with comparing | unchecked
    · have sameStart : search.quiet.initial = search.initial := by
        simp [initial, quiet, comparing]
      rw [sameStart]
    · have sameStart : search.quiet.initial.silenced = search.initial.silenced := rfl
      rw [← runFor_silenced unchecked, sameStart, runFor_silenced unchecked]

theorem isSome_captures?_iff_silenced :
    search.captures?.isSome ↔ search.run.silenced.verdict = some (.matched .silent) := by
  simp only [captures?, Run.silenced]
  rcases search.run.verdict with _ | _ | _ | _ <;> simp [Verdict.silenced]

theorem failed_iff_silenced :
    search.run.verdict = some .failed ↔ search.run.silenced.verdict = some .failed := by
  simp only [Run.silenced]
  rcases search.run.verdict with _ | _ | _ | _ <;> simp [Verdict.silenced]

section Quiet

variable (kept : search.comparing = true ∨ Unchecked search.segments)
include kept

theorem growths_quiet : search.quiet.run.growths = search.run.growths := by
  have same : search.quiet.run.silenced.growths = search.run.silenced.growths :=
    congrArg Run.growths (search.run_quiet kept)
  exact same

theorem isSome_captures?_quiet :
    search.quiet.captures?.isSome = search.captures?.isSome := by
  rw [Bool.eq_iff_iff, isSome_captures?_iff_silenced, isSome_captures?_iff_silenced,
    search.run_quiet kept]

theorem failed_quiet :
    search.quiet.run.verdict = some .failed ↔ search.run.verdict = some .failed := by
  rw [failed_iff_silenced, failed_iff_silenced, search.run_quiet kept]

end Quiet

theorem isSome_captures?_or_failed (separated : search.separator ≠ []) :
    search.captures?.isSome ∨ search.run.verdict = some .failed := by
  cases dealt : Commitment.deal search.initial.bindings.enabled search.separator search.segments
      (search.input.pieces search.separator) with
  | none => exact .inr (verdict_of_deal_eq_none search separated dealt)
  | some bound => exact .inl (by rw [captures?_eq_of_separated search separated, dealt]; rfl)

end Search

end PathPattern
