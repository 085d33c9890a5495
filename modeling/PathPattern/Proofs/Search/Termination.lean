import PathPattern.Proofs.Commitment.Refinement
import PathPattern.Proofs.Search.Growth

namespace PathPattern

namespace Boundary

/-- Without a separator, a boundary is found where it is looked for. -/
theorem find?_start (input : Text) : find? input [] 0 = some ⟨0, false⟩ := by
  cases input <;> rfl

end Boundary

namespace Search

variable {search : Search} {state : State} {steps limit index : Nat}

theorem runFor_eq_of_verdict {verdict : Verdict}
    (ended : (search.runFor steps state).verdict = some verdict) (enough : steps ≤ limit) :
    search.runFor limit state = search.runFor steps state := by
  induction steps generalizing state limit with
  | zero => simp [runFor] at ended
  | succ steps ih =>
      obtain ⟨limit, rfl⟩ : ∃ less, limit = less + 1 := ⟨limit - 1, by omega⟩
      have enoughLess : steps ≤ limit := by omega
      simp only [runFor] at ended ⊢
      cases step : search.step state with
      | stop verdict => rfl
      | advance next =>
          rw [step] at ended
          exact ih ended enoughLess
      | grow growth next =>
          rw [step] at ended
          exact congrArg (Run.afterGrowth growth) (ih ended enoughLess)

/-- The search has come to an end, and not by leaving its input. -/
def Ends (search : Search) : Prop :=
  ∃ verdict, search.run.verdict = some verdict ∧ verdict ≠ .strayed

theorem ends_of_separated (separated : search.separator ≠ []) : search.Ends := by
  by_cases nonempty : search.segments = []
  · exact ⟨.failed, by rw [run_of_empty nonempty], by simp⟩
  · obtain ⟨verdict, yields, ends⟩ := settles_deal separated nonempty
    refine ⟨verdict, ?_, yields.ne_strayed⟩
    rw [run_of_nonempty nonempty, ends search.budget (Nat.le_refl _)]

section Unseparated

variable {segment : Segment}

/-- Without a separator, the piece offered is empty and stands at the start. -/
theorem step_unseparated (empty : search.separator = [])
    (here : search.segments[index]? = some segment) (plain : segment.isWildcard = false)
    (bindings : Bindings) :
    search.step { index, bindings } = .stop .failed ∨
      index + 1 < search.segments.length ∧
        search.step { index, bindings } =
          .advance { index := index + 1, bindings := segment.record bindings ⟨0, 0⟩ } := by
  have within := (List.getElem?_eq_some_iff.1 here).1
  have found : search.boundary? { index, bindings } segment = some ⟨0, false⟩ := by
    simp only [boundary?, plain, Bool.false_and, Bool.false_eq_true, if_false, empty, Nat.add_zero,
      Boundary.find?_start]
  have read : Span.read? ⟨0, 0⟩ search.input = some [] :=
    Span.read?_eq_some_iff.2 ⟨[], search.input, rfl, rfl, rfl⟩
  have fails : fallBack { index, bindings } = .stop .failed := rfl
  rw [step_of_offered here found read, fails]
  by_cases inner : index + 1 < search.segments.length
  · have notLast : search.atLast { index, bindings } = false := by
      simp only [atLast, beq_eq_false_iff_ne]
      omega
    cases accepted : segment.accepts bindings search.input [] false with
    | true => simp [notLast, accepted, takeRun, plain, empty, inner]
    | false => simp [notLast, accepted]
  · have last : search.atLast { index, bindings } = true := by
      simp only [atLast, beq_iff_eq]
      omega
    simp [last]

theorem step_unseparated_wildcard (here : search.segments[index]? = some segment)
    (wild : segment.isWildcard = true) (last : index + 1 = search.segments.length)
    (bindings : Bindings) :
    search.step { index, bindings } =
      .stop (.matched (segment.record bindings ⟨0, search.input.byteSize⟩)) := by
  have atLast : search.atLast { index, bindings } = true := by
    simpa only [atLast, beq_iff_eq] using last
  have found : search.boundary? { index, bindings } segment =
      some ⟨search.input.byteSize, true⟩ := by
    simp only [boundary?, wild, atLast, Bool.and_self, if_true]
  have read : Span.read? ⟨0, search.input.byteSize⟩ search.input = some search.input :=
    Span.read?_eq_some_iff.2 ⟨[], [], by simp, rfl, rfl⟩
  have accepted : segment.accepts bindings search.input search.input true = true := by
    cases segment with
    | wildcard key => rfl
    | _ => simp [Segment.isWildcard] at wild
  simp [step_of_offered here found read, atLast, accepted, takeRun]

end Unseparated

/-- No wildcard stands before the last segment. -/
def Still (segments : List Segment) : Prop :=
  ∀ segment ∈ segments.dropLast, segment.isWildcard = false

theorem Still.isWildcard_of_inner {segments : List Segment} {segment : Segment}
    (still : Still segments) (here : segments[index]? = some segment)
    (inner : index + 1 < segments.length) : segment.isWildcard = false := by
  have within : index < segments.length - 1 := by omega
  apply still
  rw [List.dropLast_eq_take]
  apply List.mem_of_getElem?
  rw [List.getElem?_take_of_lt within, here]

theorem exists_verdict_of_still (empty : search.separator = []) (still : Still search.segments)
    (within : index < search.segments.length) (enough : search.segments.length ≤ index + steps)
    (bindings : Bindings) :
    ∃ verdict, (search.runFor steps { index, bindings }).verdict = some verdict ∧
      verdict ≠ .strayed := by
  induction steps generalizing index bindings with
  | zero => omega
  | succ steps ih =>
      have here := List.getElem?_eq_getElem within
      cases wild : search.segments[index].isWildcard with
      | true =>
          have last : index + 1 = search.segments.length := by
            by_cases inner : index + 1 < search.segments.length
            · have plain := still.isWildcard_of_inner here inner
              simp [plain] at wild
            · omega
          simp only [runFor, step_unseparated_wildcard here wild last bindings]
          exact ⟨_, rfl, by simp⟩
      | false =>
          rcases step_unseparated empty here wild bindings with fails | ⟨inner, advances⟩
          · simp only [runFor, fails]
            exact ⟨_, rfl, by simp⟩
          · simp only [runFor, advances]
            exact ih inner (by omega) _

theorem ends_of_still (empty : search.separator = []) (still : Still search.segments) :
    search.Ends := by
  by_cases nonempty : search.segments = []
  · exact ⟨.failed, by rw [run_of_empty nonempty], by simp⟩
  · have somePieces := List.length_pos_iff.2 (Text.pieces_ne_nil search.input search.separator)
    have enough : search.segments.length ≤ 0 + search.budget := by
      rw [Nat.zero_add]
      exact Nat.le_mul_of_pos_left _ somePieces
    rw [Ends, run_of_nonempty nonempty]
    exact exists_verdict_of_still empty still (List.length_pos_iff.2 nonempty) enough _

theorem ends_of_separated_or_still (ends : search.separator ≠ [] ∨ Still search.segments) :
    search.Ends := by
  by_cases separated : search.separator = []
  · exact ends_of_still separated (ends.resolve_left fun some => some separated)
  · exact ends_of_separated separated

theorem climbs_run (separated : search.separator ≠ []) :
    Climbs search 0 1 search.run.growths := by
  have somePieces := List.length_pos_iff.2 (Text.pieces_ne_nil search.input search.separator)
  by_cases nonempty : search.segments = []
  · rw [run_of_empty nonempty]
    exact .nil somePieces
  · obtain ⟨segment, ahead, whole⟩ := List.exists_cons_of_ne_nil nonempty
    rw [run_of_nonempty nonempty]
    exact (Standing.initial separated whole).climbs .initial search.budget

/-- A search ends if it has a separator, or no wildcard before its last segment.  It takes
at most as many steps as there are segments, for each separator and once more; further
steps change nothing.  With a separator, each growth is of the nearest wildcard before a
segment that is none, none is at an earlier wildcard than the one before, and they are
from behind later and later separators, so there are no more of them than separators. -/
theorem run_bounded (settings : Settings) (segments : List Segment) (input : Text)
    (capturing : Bool) (ends : settings.separator ≠ [] ∨ Still segments) :
    let search := Search.of settings segments input capturing
    let separators := (input.pieces settings.separator).length - 1
    search.Ends ∧
      (segments ≠ [] → ∀ limit, (separators + 1) * segments.length ≤ limit →
        search.runFor limit search.initial = search.run) ∧
      (settings.separator ≠ [] →
        (∀ growth ∈ search.run.growths, growth.Placed search) ∧
        (search.run.growths.Pairwise fun earlier later =>
          earlier.wildcard ≤ later.wildcard ∧ earlier.resume < later.resume) ∧
        search.run.growths.length ≤ separators) := by
  intro search separators
  have ended : search.Ends := ends_of_separated_or_still ends
  refine ⟨ended, ?_, ?_⟩
  · intro nonempty limit enough
    have somePieces := List.length_pos_iff.2 (Text.pieces_ne_nil input settings.separator)
    have budget : search.budget = (separators + 1) * segments.length := by
      rw [show separators + 1 = (input.pieces settings.separator).length by omega]
      rfl
    obtain ⟨verdict, stopped, _⟩ := ended
    rw [run_of_nonempty nonempty] at stopped ⊢
    exact runFor_eq_of_verdict stopped (by rwa [budget])
  · intro separated
    have climbs : Climbs search 0 1 search.run.growths := climbs_run separated
    have fewer : search.run.growths.length + 1 ≤ (input.pieces settings.separator).length :=
      climbs.length_le
    exact ⟨climbs.placed, climbs.pairwise separated, by omega⟩

/-- The first wildcard grows once, and the second once more after it has taken its place. -/
theorem run_bounded_replaced :
    let segments : List Segment :=
      [.wildcard ['v'], .literal ['a'], .wildcard ['w'], .literal ['b']]
    let search := Search.of {} segments "x/y/a/p/q/b".toList true
    (Settings.separator {} ≠ [] ∨ Still segments) ∧ search.Ends ∧
      search.runFor 24 search.initial = search.run ∧
      search.run.growths = [⟨0, 1, 0, 2⟩, ⟨2, 3, 6, 2⟩] ∧
      (∀ growth ∈ search.run.growths, growth.Placed search) ∧
      search.run.growths.length ≤ 5 := by
  intro segments search
  have separated : Settings.separator {} ≠ [] := by decide
  obtain ⟨ends, stops, grows⟩ :=
    run_bounded {} segments "x/y/a/p/q/b".toList true (.inl separated)
  obtain ⟨placed, _, fewer⟩ := grows separated
  exact ⟨.inl separated, ends, stops (by simp [segments]) 24 (by decide), by decide, placed, fewer⟩

end Search

end PathPattern
