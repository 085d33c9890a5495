import PathPattern.Proofs.Commitment.Choice

namespace PathPattern

/-- The segment without the demand to agree. -/
def Segment.lax : Segment → Segment
  | .literal text => .literal text
  | .parameter key _ => .parameter key false
  | .wildcard key => .wildcard key

@[simp] theorem Segment.key?_lax (segment : Segment) : segment.lax.key? = segment.key? := by
  cases segment <;> rfl

namespace Commitment

variable {enabled final last : Bool} {separator piece : Text} {bound known : Bound}
  {segment : Segment} {run segments : List Segment} {stage : Stage} {pieces left taken : List Text}
  {result : Bound × List Text}

def Stage.lax (stage : Stage) : Stage := ⟨stage.key, stage.run.map Segment.lax⟩

theorem stages_lax (segments : List Segment) :
    stages (segments.map Segment.lax) =
      ((stages segments).1.map Segment.lax, (stages segments).2.map Stage.lax) := by
  induction segments with
  | nil => rfl
  | cons segment rest ih =>
      cases segment <;>
        simp only [List.map_cons, Segment.lax, stages, ih, List.map_nil, Stage.lax]

/-- Every key has one text. -/
def Univocal (bound : Bound) : Prop :=
  ∀ key text other, (key, text) ∈ bound → (key, other) ∈ bound → text = other

instance decidableUnivocal (bound : Bound) : Decidable (Univocal bound) :=
  decidable_of_iff (∀ one ∈ bound, ∀ another ∈ bound, one.1 = another.1 → one.2 = another.2)
    ⟨fun same _ _ _ here there => same _ here _ there rfl,
      fun univocal one here another there key =>
        univocal one.1 one.2 another.2 here (key ▸ there)⟩

theorem Univocal.of_suffix (univocal : Univocal known) (behind : bound <:+ known) :
    Univocal bound :=
  fun key text other here there => univocal key text other (behind.mem here) (behind.mem there)

theorem mem_of_lookup {key text : Text} (found : bound.lookup key = some text) :
    (key, text) ∈ bound := by
  induction bound with
  | nil => simp at found
  | cons entry rest ih =>
      rw [Captures.lookup_cons] at found
      split at found
      · next same =>
        obtain rfl := Option.some.inj found
        rw [same]
        exact List.mem_cons_self
      · exact List.mem_cons_of_mem _ (ih found)

theorem suffix_remember (enabled : Bool) (key? : Option Text) (text : Text) (bound : Bound) :
    bound <:+ remember enabled key? text bound := by
  cases key? with
  | none => exact List.suffix_refl bound
  | some key => cases enabled <;> simp [remember]

theorem suffix_of_dealRun (dealt : dealRun enabled final run pieces bound = some (known, left)) :
    bound <:+ known := by
  induction run generalizing pieces bound with
  | nil =>
      simp only [dealRun, Option.some.injEq, Prod.mk.injEq] at dealt
      exact dealt.1 ▸ List.suffix_refl bound
  | cons segment rest ih =>
      obtain ⟨piece, others, rfl, _, dealtRest⟩ := dealRun_cons_eq_some_iff.1 dealt
      exact (suffix_remember _ _ _ _).trans (ih dealtRest)

theorem suffix_of_dealStages {later : List Stage}
    (dealt : dealStages enabled separator later pieces bound = some known) : bound <:+ known := by
  induction later generalizing pieces bound with
  | nil =>
      simp only [dealStages, Option.some.injEq] at dealt
      exact dealt ▸ List.suffix_refl bound
  | cons stage rest ih =>
      rw [dealStages_cons, Option.bind_eq_some_iff] at dealt
      obtain ⟨⟨now, left⟩, chosen, dealtRest⟩ := dealt
      obtain ⟨_, _, _, _, fits, _⟩ := exists_least_of_dealStage chosen
      exact (suffix_remember _ _ _ _).trans ((suffix_of_dealRun fits.1).trans (ih dealtRest))

theorem accepts_lax (accepted : accepts bound last piece segment = true) :
    accepts bound last piece segment.lax = true := by
  cases segment with
  | literal text => exact accepted
  | wildcard key => exact accepted
  | parameter key mustAgree =>
      simp only [accepts, Bool.and_eq_true] at accepted
      simpa [accepts, Segment.lax] using accepted.1

theorem accepts_of_lax (accepted : accepts bound last piece segment.lax = true)
    (same : ∀ key text, segment.key? = some key → bound.lookup key = some text → text = piece) :
    accepts bound last piece segment = true := by
  cases segment with
  | literal text => exact accepted
  | wildcard key => exact accepted
  | parameter key mustAgree =>
      have agrees : (bound.lookup key).all (· == piece) = true := by
        simpa [Option.all_eq_true] using fun text => same key text rfl
      simp only [accepts, Segment.lax, Bool.not_false, Bool.true_or, Bool.and_true] at accepted
      simp only [accepts, accepted, agrees, Bool.or_true, Bool.and_self]

theorem dealRun_lax (dealt : dealRun enabled final run pieces bound = some result) :
    dealRun enabled final (run.map Segment.lax) pieces bound = some result := by
  induction run generalizing pieces bound with
  | nil => exact dealt
  | cons segment rest ih =>
      obtain ⟨piece, others, rfl, accepted, dealtRest⟩ := dealRun_cons_eq_some_iff.1 dealt
      simp only [List.map_cons, dealRun, List.isEmpty_map, accepts_lax accepted, if_true,
        Segment.key?_lax, ih dealtRest]

theorem dealRun_of_lax
    (dealt : dealRun true final (run.map Segment.lax) pieces bound = some (known, left))
    (univocal : Univocal known) : dealRun true final run pieces bound = some (known, left) := by
  induction run generalizing pieces bound with
  | nil => exact dealt
  | cons segment rest ih =>
      rw [List.map_cons, dealRun_cons_eq_some_iff, List.isEmpty_map, Segment.key?_lax] at dealt
      obtain ⟨piece, others, rfl, laxly, dealtRest⟩ := dealt
      have accepted : accepts bound (final && rest.isEmpty) piece segment = true := by
        apply accepts_of_lax laxly
        intro key text own found
        -- The text that is compared and the one it is compared with are both kept.
        have extended := suffix_of_dealRun dealtRest
        rw [own] at extended
        have before : (key, text) ∈ known :=
          ((suffix_remember true (some key) piece bound).trans extended).mem
            (mem_of_lookup found)
        have now : (key, piece) ∈ known := extended.mem (by simp [remember])
        exact univocal key text piece before now
      exact dealRun_cons_eq_some_iff.2 ⟨piece, others, rfl, accepted, ih dealtRest⟩

theorem dealStage_of_lax
    (dealt : dealStage true final separator stage.lax bound taken pieces = some (known, left))
    (univocal : Univocal known) :
    dealStage true final separator stage bound taken pieces = some (known, left) := by
  induction pieces generalizing taken with
  | nil => exact dealt
  | cons piece pieces ih =>
      by_cases laxly : ∃ now, RunFits true final stage.lax.run pieces
          (remember true (some stage.key) (separator.intercalate (taken ++ [piece])) bound) now
      · obtain ⟨now, fits⟩ := laxly
        obtain rfl : now = (known, left) :=
          Option.some.inj ((dealStage_of_fits fits).symm.trans dealt)
        exact dealStage_of_fits ⟨dealRun_of_lax fits.1 univocal, fits.2⟩
      -- Where the lax run does not fit, the strict one does not, so both grow.
      · have unfit := not_exists.1 laxly
        rw [dealStage_of_unfit unfit] at dealt
        rw [dealStage_of_unfit fun now fits => unfit now ⟨dealRun_lax fits.1, fits.2⟩]
        exact ih dealt

theorem dealStages_of_lax {later : List Stage}
    (dealt : dealStages true separator (later.map Stage.lax) pieces bound = some known)
    (univocal : Univocal known) : dealStages true separator later pieces bound = some known := by
  induction later generalizing pieces bound with
  | nil => exact dealt
  | cons stage rest ih =>
      rw [List.map_cons, dealStages_cons, List.isEmpty_map, Option.bind_eq_some_iff] at dealt
      obtain ⟨⟨now, left⟩, chosen, dealtRest⟩ := dealt
      have univocalNow := univocal.of_suffix (suffix_of_dealStages dealtRest)
      rw [dealStages_cons, dealStage_of_lax chosen univocalNow, Option.bind_some]
      exact ih dealtRest

/-- What lax segments are dealt, strict ones are too if no key is bound to two texts. -/
theorem deal_of_lax
    (dealt : deal true separator (segments.map Segment.lax) pieces = some known)
    (univocal : Univocal known) : deal true separator segments pieces = some known := by
  have nonempty : segments ≠ [] := by
    rintro rfl
    simp [deal] at dealt
  have nonemptyLax : segments.map Segment.lax ≠ [] := by simpa using nonempty
  by_cases laxly : ∃ now, RunFits true (stages (segments.map Segment.lax)).2.isEmpty
      (stages (segments.map Segment.lax)).1 pieces [] now
  · obtain ⟨⟨now, left⟩, fits⟩ := laxly
    rw [deal_of_fits nonemptyLax fits, stages_lax] at dealt
    rw [stages_lax, List.isEmpty_map] at fits
    have univocalNow := univocal.of_suffix (suffix_of_dealStages dealt)
    have strictly : RunFits true (stages segments).2.isEmpty (stages segments).1 pieces []
        (now, left) := ⟨dealRun_of_lax fits.1 univocalNow, fits.2⟩
    rw [deal_of_fits nonempty strictly]
    exact dealStages_of_lax dealt univocal
  · rw [deal_of_unfit (not_exists.1 laxly)] at dealt
    contradiction

end Commitment

end PathPattern
