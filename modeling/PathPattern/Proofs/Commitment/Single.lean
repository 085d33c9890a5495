import PathPattern.Proofs.Commitment.Soundness
import PathPattern.Proofs.Cut.Occurrences
import PathPattern.Segment.Filling

namespace PathPattern

open Commitment (Bound Plain RunFits Stage deal dealStages spread)

namespace Segment

variable {texts : Text → Text}

/-- What a segment is filled with, if every key has a text. -/
def filled (texts : Text → Text) : Segment → Text
  | .literal text => text
  | .parameter key _ => texts key
  | .wildcard key => texts key

theorem filled_of_key {segment : Segment} {key : Text} (own : segment.key? = some key) :
    segment.filled texts = texts key := by
  cases segment with
  | literal text => simp [key?] at own
  | parameter other mustAgree => exact congrArg texts (Option.some.inj own)
  | wildcard other => exact congrArg texts (Option.some.inj own)

theorem fillAll?_some (separator : Text) (texts : Text → Text) (segments : List Segment) :
    fillAll? separator (fun key => some (texts key)) segments =
      some (separator.intercalate (segments.map (filled texts))) := by
  have one (segment : Segment) :
      segment.fill? (fun key => some (texts key)) = some (segment.filled texts) := by
    cases segment <;> rfl
  have all : segments.mapM (fill? fun key => some (texts key)) =
      some (segments.map (filled texts)) := by
    induction segments with
    | nil => rfl
    | cons segment rest ih =>
        rw [List.mapM_cons, one, ih]
        rfl
  rw [fillAll?, all, Option.map_some]

end Segment

namespace Cut

variable {separator : Text} {bound : Bound} {run segments : List Segment} {pieces taken : List Text}
  {others : List (List Text)} {texts : Text → Text}

@[simp] theorem singly_cons (piece : Text) (pieces : List Text) :
    singly (piece :: pieces) = [piece] :: singly pieces := rfl

theorem singly_eq_append (divided : singly pieces = singly taken ++ others) :
    pieces = taken ++ others.flatten ∧ others = singly others.flatten := by
  have whole := congrArg List.flatten divided
  rw [List.flatten_append, flatten_singly, flatten_singly] at whole
  refine ⟨whole, ?_⟩
  rw [whole, singly, List.map_append] at divided
  exact (List.append_cancel_left divided).symm

/-- A run takes the blocks that it fits, and leaves those of the stages behind it. -/
theorem exists_runFits_of_singly {stages : List Stage} (plain : Plain run)
    (fits : Fits separator bound (run ++ spread stages) (singly pieces)) :
    ∃ known left, RunFits true stages.isEmpty run pieces bound (known, left) ∧
      Fits separator known (spread stages) (singly left) ∧
      learned separator bound (run ++ spread stages) (singly pieces) =
        learned separator known (spread stages) (singly left) := by
  obtain ⟨taken, others, known, divided, _, fitsLater, runFits⟩ := runFits_of_fits plain fits
  obtain ⟨rfl, single⟩ := singly_eq_append divided
  have dealt := runFits.1
  rw [← Commitment.isEmpty_spread] at dealt
  obtain ⟨front, whole, _, same⟩ := fits_of_dealRun plain dealt fitsLater
  obtain rfl := List.append_cancel_right whole
  rw [← divided] at same
  exact ⟨known, others.flatten, runFits, single ▸ fitsLater, same.trans (congrArg _ single)⟩

theorem dealStages_of_singly {stages : List Stage} (plain : ∀ stage ∈ stages, Plain stage.run)
    (fits : Fits separator bound (spread stages) (singly pieces)) :
    dealStages true separator stages pieces bound =
      some (learned separator bound (spread stages) (singly pieces)) := by
  induction stages generalizing bound pieces with
  | nil =>
      cases pieces with
      | nil => rfl
      | cons piece pieces => exact fits.elim
  | cons stage rest ih =>
      obtain ⟨plainRun, plainRest⟩ := List.forall_mem_cons.1 plain
      obtain ⟨block, behind, shape, _, fitsBehind⟩ := fits_cons_wildcard.1 fits
      obtain ⟨piece, pieces, rfl, rfl, rfl⟩ := List.map_eq_cons_iff.1 shape
      obtain ⟨known, left, runFits, fitsRest, same⟩ :=
        exists_runFits_of_singly plainRun fitsBehind
      calc
        dealStages true separator (stage :: rest) (piece :: pieces) bound =
            dealStages true separator rest left known := by
          rw [Commitment.dealStages_cons, Commitment.dealStage_of_fits runFits, Option.bind_some]
        _ = some (learned separator known (spread rest) (singly left)) := ih plainRest fitsRest
        _ = some (learned separator bound (spread (stage :: rest)) (singly (piece :: pieces))) := by
          rw [← same]
          exact congrArg some (learned_cons separator bound (.wildcard stage.key) _ _ _).symm

/-- A cut with one piece for each segment is dealt. -/
theorem deal_of_singly (nonempty : segments ≠ [])
    (fits : Fits separator [] segments (singly pieces)) :
    deal true separator segments pieces =
      some (learned separator [] segments (singly pieces)) := by
  have whole := Commitment.spread_stages segments
  have plain := Commitment.plain_stages segments
  rw [← whole] at fits
  obtain ⟨known, left, runFits, fitsRest, same⟩ := exists_runFits_of_singly plain fits
  rw [whole] at same
  rw [Commitment.deal_of_fits nonempty runFits, same]
  exact dealStages_of_singly (fun stage member => Commitment.plain_run_of_stages member) fitsRest

theorem blockText_filled {segment : Segment} {key : Text} (own : segment.key? = some key) :
    blockText separator [segment.filled texts] = texts key := by
  rw [blockText, List.intercalate_singleton, Segment.filled_of_key own]

/-- The segments filled with one text for each key fit, as long as nothing else has been
bound to a key. -/
theorem fits_filled (someText : ∀ segment ∈ segments, ∀ key, segment.key? = some key →
      texts key ≠ [])
    (known : ∀ key text, bound.lookup key = some text → text = texts key) :
    Fits separator bound segments (singly (segments.map (Segment.filled texts))) := by
  induction segments generalizing bound with
  | nil => trivial
  | cons segment rest ih =>
      obtain ⟨someHere, someRest⟩ := List.forall_mem_cons.1 someText
      refine ⟨?_, ?_, ih someRest ?_⟩
      · cases segment with
        | literal text => rfl
        | parameter key mustAgree => exact .inr (someHere key rfl)
        | wildcard key => exact List.cons_ne_nil _ _
      · intro key parameter text found
        have here : segment.key? = some key := by rw [parameter, Segment.key?]
        rw [blockText_filled here]
        exact known key text found
      · intro key text found
        by_cases here : segment.key? = some key
        · rw [here, Commitment.lookup_remember_self, blockText_filled here] at found
          exact (Option.some.inj found).symm
        · rw [Commitment.lookup_remember_of_ne here] at found
          exact known key text found

theorem lookup_reverse_entries_filled (separator : Text) (texts : Text → Text)
    (segments : List Segment) (key : Text) :
    (entries separator segments (singly (segments.map (Segment.filled texts)))).reverse.lookup
        key =
      if key ∈ segments.filterMap Segment.key? then some (texts key) else none := by
  induction segments with
  | nil => rfl
  | cons segment rest ih =>
      rw [List.map_cons, singly_cons, entries_cons, List.reverse_append, List.lookup_append, ih]
      cases own : segment.key? with
      | none => simp [own]
      | some other =>
          by_cases same : key = other
          · subst same
            by_cases later : key ∈ rest.filterMap Segment.key? <;>
              simp [own, later, blockText_filled own]
          · simp [own, same]

end Cut

end PathPattern
