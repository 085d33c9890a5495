import PathPattern.Cut
import PathPattern.Proofs.Commitment.Stages

namespace PathPattern.Cut

/-! # Blocks that fit segments

Blocks fit segments if each suits its segment and repeats what its key has, given the
texts bound before.  This is what a cut and its agreement say together, told one
segment at a time, which is how committed choice meets them.
-/

open Commitment (Bound Plain RunFits Stage dealRun remember spread)

variable {separator : Text} {bound known : Bound} {segment : Segment} {key : Text}
  {run rest after : List Segment} {block taken pieces left : List Text}
  {blocks others : List (List Text)}

/-- A parameter that must agree repeats the text that its key has. -/
def Repeats (separator : Text) (bound : Bound) (segment : Segment) (block : List Text) : Prop :=
  ∀ key, segment = .parameter key true →
    ∀ text ∈ bound.lookup key, text = blockText separator block

def Fits (separator : Text) : Bound → List Segment → List (List Text) → Prop
  | _, [], [] => True
  | bound, segment :: rest, block :: blocks =>
      segment.Suits rest.isEmpty block ∧ Repeats separator bound segment block ∧
        Fits separator (remember true segment.key? (blockText separator block) bound) rest blocks
  | _, _, _ => False

theorem agreesAfter_cons :
    AgreesAfter separator bound (segment :: rest) (block :: blocks) ↔
      Repeats separator bound segment block ∧
        AgreesAfter separator
          (remember true segment.key? (blockText separator block) bound) rest blocks := by
  cases segment with
  | literal text => simp [AgreesAfter, Repeats, remember, Segment.key?]
  | wildcard key => simp [AgreesAfter, Repeats, remember, Segment.key?]
  | parameter key mustAgree =>
      cases mustAgree <;> simp [AgreesAfter, Repeats, remember, Segment.key?]

theorem fits_of_dealt (dealt : Dealt rest blocks)
    (agrees : AgreesAfter separator bound rest blocks) : Fits separator bound rest blocks := by
  induction dealt generalizing bound with
  | last suits =>
      obtain ⟨repeats, _⟩ := agreesAfter_cons.1 agrees
      exact ⟨suits, repeats, trivial⟩
  | cons suits _ ih =>
      obtain ⟨repeats, agreesRest⟩ := agreesAfter_cons.1 agrees
      exact ⟨suits, repeats, ih agreesRest⟩

theorem dealt_of_fits (nonempty : rest ≠ []) (fits : Fits separator bound rest blocks) :
    Dealt rest blocks := by
  induction rest generalizing bound blocks with
  | nil => exact absurd rfl nonempty
  | cons segment rest ih =>
      cases blocks with
      | nil => exact fits.elim
      | cons block blocks =>
          obtain ⟨suits, _, fitsRest⟩ := fits
          cases rest with
          | nil =>
              cases blocks with
              | nil => exact .last suits
              | cons _ _ => exact fitsRest.elim
          | cons next rest => exact .cons suits (ih (by simp) fitsRest)

theorem agreesAfter_of_fits (fits : Fits separator bound rest blocks) :
    AgreesAfter separator bound rest blocks := by
  induction rest generalizing bound blocks with
  | nil => simp [AgreesAfter]
  | cons segment rest ih =>
      cases blocks with
      | nil => exact fits.elim
      | cons block blocks =>
          obtain ⟨_, repeats, fitsRest⟩ := fits
          exact agreesAfter_cons.2 ⟨repeats, ih fitsRest⟩

theorem fits_iff (nonempty : rest ≠ []) :
    Fits separator bound rest blocks ↔
      Dealt rest blocks ∧ AgreesAfter separator bound rest blocks :=
  ⟨fun fits => ⟨dealt_of_fits nonempty fits, agreesAfter_of_fits fits⟩,
    fun both => fits_of_dealt both.1 both.2⟩

theorem suits_and_repeats_iff {last : Bool} (plain : segment.isWildcard = false) :
    segment.Suits last block ∧ Repeats separator bound segment block ↔
      ∃ piece, block = [piece] ∧ Commitment.accepts bound last piece segment = true := by
  cases segment with
  | literal text => simp [Segment.Suits, Repeats, Commitment.accepts]
  | wildcard key => simp [Segment.isWildcard] at plain
  | parameter key mustAgree =>
      rcases block with _ | ⟨piece, _ | ⟨next, more⟩⟩
      · simp [Segment.Suits]
      · cases mustAgree <;>
          simp [Segment.Suits, Repeats, Commitment.accepts, blockText, Option.all_eq_true]
      · simp [Segment.Suits]

theorem fits_cons_plain (plain : segment.isWildcard = false) :
    Fits separator bound (segment :: rest) blocks ↔
      ∃ piece others, blocks = [piece] :: others ∧
        Commitment.accepts bound rest.isEmpty piece segment = true ∧
        Fits separator (remember true segment.key? piece bound) rest others := by
  refine ⟨?_, ?_⟩
  · intro fits
    cases blocks with
    | nil => exact fits.elim
    | cons block blocks =>
        obtain ⟨suits, repeats, fitsRest⟩ := fits
        obtain ⟨piece, rfl, accepted⟩ := (suits_and_repeats_iff plain).1 ⟨suits, repeats⟩
        exact ⟨piece, blocks, rfl, accepted, by simpa [blockText] using fitsRest⟩
  · intro taken
    obtain ⟨piece, others, rfl, accepted, fits⟩ := taken
    obtain ⟨suits, repeats⟩ := (suits_and_repeats_iff plain).2 ⟨piece, rfl, accepted⟩
    exact ⟨suits, repeats, by simpa [blockText] using fits⟩

theorem fits_cons_wildcard :
    Fits separator bound (.wildcard key :: rest) blocks ↔
      ∃ block others, blocks = block :: others ∧ block ≠ [] ∧
        Fits separator (remember true (some key) (separator.intercalate block) bound)
          rest others := by
  refine ⟨?_, ?_⟩
  · intro fits
    cases blocks with
    | nil => exact fits.elim
    | cons block blocks => exact ⟨block, blocks, rfl, fits.1, fits.2.2⟩
  · intro taken
    obtain ⟨block, others, rfl, nonempty, fits⟩ := taken
    exact ⟨nonempty, by simp [Repeats], fits⟩

def singly (pieces : List Text) : List (List Text) := pieces.map fun piece => [piece]

@[simp] theorem flatten_singly (pieces : List Text) : (singly pieces).flatten = pieces := by
  induction pieces with
  | nil => rfl
  | cons piece pieces ih => simpa [singly] using ih

/-- What is bound behind segments with their blocks. -/
def learned (separator : Text) (bound : Bound) (segments : List Segment)
    (blocks : List (List Text)) : Bound :=
  (entries separator segments blocks).reverse ++ bound

theorem learned_cons (separator : Text) (bound : Bound) (segment : Segment)
    (rest : List Segment) (block : List Text) (blocks : List (List Text)) :
    learned separator bound (segment :: rest) (block :: blocks) =
      learned separator (remember true segment.key? (blockText separator block) bound)
        rest blocks := by
  cases segment <;> simp [learned, entries, remember, Segment.key?]

theorem lengths_run (plain : Plain run) (size : taken.length = run.length) :
    lengths (run ++ after) (singly taken ++ others) = lengths after others := by
  induction run generalizing taken with
  | nil =>
      obtain rfl := List.eq_nil_of_length_eq_zero size
      rfl
  | cons segment rest ih =>
      obtain ⟨plainSegment, plainRest⟩ := List.forall_mem_cons.1 plain
      cases taken with
      | nil => simp at size
      | cons piece taken =>
          have inner := ih plainRest (by simpa using size)
          simpa [singly, lengths, plainSegment] using inner

theorem dealRun_of_fits (plain : Plain run) (fits : Fits separator bound (run ++ after) blocks) :
    ∃ taken others known, blocks = singly taken ++ others ∧ Fits separator known after others ∧
      ∀ left, dealRun true after.isEmpty run (taken ++ left) bound = some (known, left) := by
  induction run generalizing bound blocks with
  | nil => exact ⟨[], blocks, bound, rfl, fits, fun left => rfl⟩
  | cons segment rest ih =>
      obtain ⟨plainSegment, plainRest⟩ := List.forall_mem_cons.1 plain
      rw [List.cons_append, fits_cons_plain plainSegment] at fits
      obtain ⟨piece, further, rfl, accepted, fitsRest⟩ := fits
      obtain ⟨taken, others, known, rfl, fitsAfter, dealt⟩ := ih plainRest fitsRest
      rw [Commitment.isEmpty_append] at accepted
      refine ⟨piece :: taken, others, known, rfl, fitsAfter, fun left => ?_⟩
      simp only [List.cons_append, dealRun, accepted, if_true, dealt]

theorem fits_of_dealRun (plain : Plain run)
    (dealt : dealRun true after.isEmpty run pieces bound = some (known, left))
    (fits : Fits separator known after others) :
    ∃ taken, pieces = taken ++ left ∧
      Fits separator bound (run ++ after) (singly taken ++ others) ∧
      learned separator bound (run ++ after) (singly taken ++ others) =
        learned separator known after others := by
  induction run generalizing bound pieces with
  | nil =>
      simp only [dealRun, Option.some.injEq, Prod.mk.injEq] at dealt
      obtain ⟨rfl, rfl⟩ := dealt
      exact ⟨[], rfl, fits, rfl⟩
  | cons segment rest ih =>
      obtain ⟨plainSegment, plainRest⟩ := List.forall_mem_cons.1 plain
      obtain ⟨piece, further, rfl, accepted, dealtRest⟩ :=
        Commitment.dealRun_cons_eq_some_iff.1 dealt
      obtain ⟨taken, rfl, fitsRest, same⟩ := ih plainRest dealtRest
      rw [← Commitment.isEmpty_append] at accepted
      refine ⟨piece :: taken, rfl, ?_, ?_⟩
      · exact (fits_cons_plain plainSegment).2 ⟨piece, _, rfl, accepted, fitsRest⟩
      · rw [← same]
        simp [singly, learned_cons, blockText]

theorem isEmpty_flatten_of_fits {stages : List Stage}
    (fits : Fits separator bound (spread stages) blocks) :
    blocks.flatten.isEmpty = stages.isEmpty := by
  cases stages with
  | nil =>
      cases blocks with
      | nil => rfl
      | cons block blocks => exact fits.elim
  | cons stage rest =>
      obtain ⟨block, others, rfl, nonempty, _⟩ := fits_cons_wildcard.1 fits
      simp [nonempty]

theorem runFits_of_fits {stages : List Stage} (plain : Plain run)
    (fits : Fits separator bound (run ++ spread stages) blocks) :
    ∃ taken others known, blocks = singly taken ++ others ∧ taken.length = run.length ∧
      Fits separator known (spread stages) others ∧
      RunFits true stages.isEmpty run (taken ++ others.flatten) bound
        (known, others.flatten) := by
  obtain ⟨taken, others, known, rfl, fitsAfter, dealt⟩ := dealRun_of_fits plain fits
  have size := Commitment.length_of_dealRun (dealt others.flatten)
  rw [Commitment.isEmpty_spread] at dealt
  refine ⟨taken, others, known, rfl, ?_, fitsAfter, dealt _, isEmpty_flatten_of_fits fitsAfter⟩
  simpa using size

end PathPattern.Cut
