import PathPattern.Proofs.Commitment.Soundness

namespace PathPattern.Cut

/-! # When committed choice misses no cut

A choice that is never revised can lose a cut only where a later segment is compared
with a text that an earlier stage chose.  Stages are steady if that cannot happen.
Then the least block of a wildcard is as good as a longer one: the run behind it is
dealt, and the pieces that are left over go to the next wildcard.
-/

open Commitment (Bound Plain RunFits Stage StageFits accepts deal dealRun dealStage dealStages
  remember spread stages)

variable {separator : Text} {bound other now : Bound} {key : Text}
  {run rest segments : List Segment} {pieces left : List Text} {blocks : List (List Text)}
  {pinned : List Text}

/-- A key that a later parameter must agree with is carried by no segment of a stage, or
it is pinned and every segment that carries it must agree with it too.  The key of a
wildcard is not compared in the run behind it. -/
def Steady (pinned : List Text) : List Stage → Prop
  | [] => True
  | stage :: rest =>
      .parameter stage.key true ∉ stage.run ∧
        (∀ key, .parameter key true ∈ spread rest →
          ∀ segment ∈ Segment.wildcard stage.key :: stage.run, segment.key? = some key →
            key ∈ pinned ∧ segment = .parameter key true) ∧
        Steady pinned rest

theorem lookup_of_dealRun {final : Bool}
    (dealt : dealRun true final run pieces bound = some (now, left))
    (kept : ∀ segment ∈ run, segment.key? = some key →
      segment = .parameter key true ∧ (bound.lookup key).isSome) :
    now.lookup key = bound.lookup key := by
  induction run generalizing bound pieces with
  | nil =>
      simp only [dealRun, Option.some.injEq, Prod.mk.injEq] at dealt
      rw [dealt.1]
  | cons segment rest ih =>
      obtain ⟨piece, others, rfl, accepted, dealtRest⟩ :=
        Commitment.dealRun_cons_eq_some_iff.1 dealt
      have same : (remember true segment.key? piece bound).lookup key = bound.lookup key := by
        by_cases own : segment.key? = some key
        · obtain ⟨rfl, known⟩ := kept segment List.mem_cons_self own
          obtain ⟨text, found⟩ := Option.isSome_iff_exists.1 known
          simp only [accepts, found, Option.all_some, Bool.not_true, Bool.false_or,
            Bool.and_eq_true, beq_iff_eq] at accepted
          rw [own, Commitment.lookup_remember_self, found, accepted.2]
        · exact Commitment.lookup_remember_of_ne own piece bound
      refine (ih dealtRest ?_).trans same
      intro later member own
      rw [same]
      exact kept later (List.mem_cons_of_mem _ member) own

theorem isSome_lookup_remember (key? : Option Text) (text : Text)
    (known : (bound.lookup key).isSome) : ((remember true key? text bound).lookup key).isSome := by
  by_cases own : key? = some key
  · rw [own, Commitment.lookup_remember_self, Option.isSome_some]
  · rwa [Commitment.lookup_remember_of_ne own]

theorem isSome_lookup_of_dealRun {final : Bool}
    (dealt : dealRun true final run pieces bound = some (now, left))
    (known : (bound.lookup key).isSome ∨ ∃ segment ∈ run, segment.key? = some key) :
    (now.lookup key).isSome := by
  induction run generalizing bound pieces with
  | nil =>
      simp only [dealRun, Option.some.injEq, Prod.mk.injEq] at dealt
      simpa [dealt.1] using known
  | cons segment rest ih =>
      obtain ⟨piece, others, rfl, _, dealtRest⟩ := Commitment.dealRun_cons_eq_some_iff.1 dealt
      apply ih dealtRest
      rcases known with before | ⟨carrier, member, own⟩
      · exact Or.inl (isSome_lookup_remember _ _ before)
      · rcases List.mem_cons.1 member with rfl | later
        · rw [own, Commitment.lookup_remember_self]
          exact Or.inl rfl
        · exact Or.inr ⟨carrier, later, own⟩

/-- Only the texts of keys that are compared matter to what fits. -/
theorem fits_congr (same : ∀ key, .parameter key true ∈ segments →
      bound.lookup key = other.lookup key)
    (fits : Fits separator bound segments blocks) : Fits separator other segments blocks := by
  induction segments generalizing bound other blocks with
  | nil =>
      cases blocks with
      | nil => trivial
      | cons block blocks => exact fits.elim
  | cons segment rest ih =>
      cases blocks with
      | nil => exact fits.elim
      | cons block blocks =>
          obtain ⟨suits, repeats, fitsRest⟩ := fits
          refine ⟨suits, ?_, ih ?_ fitsRest⟩
          · intro key parameter
            rw [← same key (by simp [parameter])]
            exact repeats key parameter
          · intro key member
            by_cases own : segment.key? = some key
            · rw [own, Commitment.lookup_remember_self, Commitment.lookup_remember_self]
            · rw [Commitment.lookup_remember_of_ne own, Commitment.lookup_remember_of_ne own]
              exact same key (List.mem_cons_of_mem _ member)

theorem exists_grown_of_fits (fresh : .parameter key true ∉ rest) (extra : List Text)
    (fits : Fits separator bound (.wildcard key :: rest) blocks) :
    ∃ grown, Fits separator bound (.wildcard key :: rest) grown ∧
      grown.flatten = extra ++ blocks.flatten := by
  obtain ⟨block, others, rfl, nonempty, fitsRest⟩ := fits_cons_wildcard.1 fits
  refine ⟨(extra ++ block) :: others, ?_, by simp⟩
  refine fits_cons_wildcard.2 ⟨extra ++ block, others, rfl, by simp [nonempty], ?_⟩
  refine fits_congr ?_ fitsRest
  intro compared member
  have differs : some key ≠ some compared := by
    intro same
    exact fresh (Option.some.inj same ▸ member)
  rw [Commitment.lookup_remember_of_ne differs, Commitment.lookup_remember_of_ne differs]

section Exchange

variable {stage next : Stage} {later : List Stage} {block behind : List Text}

theorem Steady.fresh (steady : Steady pinned (next :: later)) :
    .parameter next.key true ∉ next.run ++ spread later := by
  obtain ⟨notInRun, notCarried, _⟩ := steady
  intro member
  rcases List.mem_append.1 member with inRun | inLater
  · exact notInRun inRun
  · have same := (notCarried next.key inLater (.wildcard next.key) List.mem_cons_self rfl).2
    contradiction

/-- Whatever a stage chooses, the texts that are compared later stay the same. -/
theorem Steady.lookup_of_stageFits {final : Bool} (steady : Steady pinned (stage :: later))
    (known : ∀ key ∈ pinned, (bound.lookup key).isSome)
    (fits : StageFits true final separator stage bound block behind (now, left))
    (compared : .parameter key true ∈ spread later) : now.lookup key = bound.lookup key := by
  obtain ⟨_, notCarried, _⟩ := steady
  have differs : some stage.key ≠ some key := by
    intro same
    have wild := (notCarried key compared (.wildcard stage.key) List.mem_cons_self same).2
    contradiction
  have start (text : Text) : (remember true (some stage.key) text bound).lookup key =
      bound.lookup key := Commitment.lookup_remember_of_ne differs text bound
  rw [← start (separator.intercalate block)]
  apply lookup_of_dealRun fits.1
  intro segment member own
  obtain ⟨inPinned, checked⟩ := notCarried key compared segment (List.mem_cons_of_mem _ member) own
  rw [start]
  exact ⟨checked, known key inPinned⟩

/-- If a stage can choose a longer block so that the later stages fit, they fit behind a
shorter block too. -/
theorem Steady.exists_fits_of_shorter {longer others : List Text} {after : Bound}
    (steady : Steady pinned (stage :: later))
    (known : ∀ key ∈ pinned, (bound.lookup key).isSome)
    (fits : StageFits true later.isEmpty separator stage bound block behind (now, left))
    (fitsLonger : StageFits true later.isEmpty separator stage bound longer others
      (after, blocks.flatten))
    (whole : block ++ behind = longer ++ others) (shorter : block.length ≤ longer.length)
    (fitsAfter : Fits separator after (spread later) blocks) :
    ∃ grown, FitsWhole separator now (spread later) left grown := by
  cases later with
  | nil => exact ⟨[], trivial, (List.isEmpty_iff.1 fits.2).symm⟩
  | cons next later =>
      have fitsNow : Fits separator now (spread (next :: later)) blocks := by
        refine fits_congr ?_ fitsAfter
        intro key compared
        rw [steady.lookup_of_stageFits known fitsLonger compared,
          steady.lookup_of_stageFits known fits compared]
      -- Both ends are what a stage leaves of the same pieces, and the shorter block leaves more.
      obtain ⟨taken, divided, size⟩ := Commitment.exists_taken_of_dealRun fits.1
      obtain ⟨takenLonger, dividedLonger, sizeLonger⟩ :=
        Commitment.exists_taken_of_dealRun fitsLonger.1
      have endOfLonger : blocks.flatten <:+ block ++ behind :=
        ⟨longer ++ takenLonger, by rw [whole, dividedLonger, List.append_assoc]⟩
      have endOfShorter : left <:+ block ++ behind :=
        ⟨block ++ taken, by rw [divided, List.append_assoc]⟩
      have fewer : blocks.flatten.length ≤ left.length := by
        have lengths := congrArg List.length whole
        simp only [divided, dividedLonger, List.length_append] at lengths
        omega
      obtain ⟨extra, rfl⟩ := List.suffix_of_suffix_length_le endOfLonger endOfShorter fewer
      exact exists_grown_of_fits steady.2.2.fresh extra fitsNow

theorem Steady.isSome_dealStages {stages : List Stage} (steady : Steady pinned stages)
    (plain : ∀ stage ∈ stages, Plain stage.run)
    (known : ∀ key ∈ pinned, (bound.lookup key).isSome)
    (fits : FitsWhole separator bound (spread stages) pieces blocks) :
    (dealStages true separator stages pieces bound).isSome := by
  induction stages generalizing bound pieces blocks with
  | nil => rfl
  | cons stage later ih =>
      obtain ⟨plainRun, plainLater⟩ := List.forall_mem_cons.1 plain
      obtain ⟨fitsAll, rfl⟩ := fits
      obtain ⟨longer, others, rfl, nonempty, fitsOthers⟩ := fits_cons_wildcard.1 fitsAll
      obtain ⟨taken, ends, after, rfl, _, fitsAfter, fitsLonger⟩ :=
        runFits_of_fits plainRun fitsOthers
      rw [List.flatten_cons, List.flatten_append, flatten_singly, Commitment.dealStages_cons]
      cases chosen : dealStage true later.isEmpty separator stage bound []
          (longer ++ (taken ++ ends.flatten)) with
      | none =>
          exact absurd fitsLonger (Commitment.unfit_of_dealStage chosen _ _ _ rfl nonempty)
      | some dealt =>
          -- The blocks that fit need not begin with the chosen one, but then it is shorter.
          obtain ⟨now, left⟩ := dealt
          obtain ⟨block, behind, whole, _, fitsNow, least⟩ :=
            Commitment.exists_least_of_dealStage chosen
          have shorter := least _ _ _ rfl nonempty fitsLonger
          obtain ⟨grown, fitsGrown⟩ := steady.exists_fits_of_shorter known fitsNow fitsLonger
            whole.symm shorter fitsAfter
          have knownNow (key : Text) (member : key ∈ pinned) : (now.lookup key).isSome :=
            isSome_lookup_of_dealRun fitsNow.1
              (.inl (isSome_lookup_remember _ _ (known key member)))
          exact ih steady.2.2 plainLater knownNow fitsGrown

end Exchange

/-- The keys of the segments before the first wildcard. -/
def openingKeys (segments : List Segment) : List Text :=
  (stages segments).1.filterMap Segment.key?

theorem isSome_deal (steady : Steady (openingKeys segments) (stages segments).2)
    (nonempty : segments ≠ []) (fits : FitsWhole separator [] segments pieces blocks) :
    (deal true separator segments pieces).isSome := by
  obtain ⟨fitsAll, rfl⟩ := fits
  rw [← Commitment.spread_stages segments] at fitsAll
  obtain ⟨taken, others, known, rfl, _, fitsAfter, runFits⟩ :=
    runFits_of_fits (Commitment.plain_stages segments) fitsAll
  rw [List.flatten_append, flatten_singly, Commitment.deal_of_fits nonempty runFits]
  have pinnedKnown (key : Text) (member : key ∈ openingKeys segments) :
      (known.lookup key).isSome := by
    obtain ⟨segment, inRun, own⟩ := List.mem_filterMap.1 member
    exact isSome_lookup_of_dealRun runFits.1 (.inr ⟨segment, inRun, own⟩)
  exact steady.isSome_dealStages (fun stage member => Commitment.plain_run_of_stages member)
    pinnedKnown ⟨fitsAfter, rfl⟩

end PathPattern.Cut
