import PathPattern.Proofs.Commitment.Relaxation
import PathPattern.Proofs.Layout.Numbering
import PathPattern.Proofs.Pattern.Acceptance
import PathPattern.Proofs.Pattern.Compiling

namespace PathPattern

/-! # Patterns with and without agreement

Agreement changes nothing about which patterns compile, and takes matches away.  Neither
search follows the other: with agreement a wildcard may grow further.  But what a search
with agreement finds is a cut, and without agreement no cut is missed; and where the
search without agreement has bound one text to each key, agreement was never in the way.
-/

open Commitment (Univocal deal)

theorem Cut.dealt_lax {segments : List Segment} {blocks : List (List Text)}
    (dealt : Dealt segments blocks) : Dealt (segments.map Segment.lax) blocks := by
  have same (segment : Segment) (last : Bool) (block : List Text)
      (suits : segment.Suits last block) : segment.lax.Suits last block := by
    cases segment with
    | literal text => exact suits
    | parameter key mustAgree =>
        rcases block with _ | ⟨piece, _ | ⟨next, more⟩⟩ <;> exact suits
    | wildcard key => exact suits
  induction dealt with
  | last suits => exact .last (same _ _ _ suits)
  | cons suits _ ih => exact .cons (same _ _ _ suits) ih

namespace Layout

theorem segmentsFrom_lax (mustAgree : Bool) (taken : Nat) (readings : List Reading) :
    segmentsFrom false taken readings =
      (segmentsFrom mustAgree taken readings).map Segment.lax := by
  induction readings generalizing taken with
  | nil => rfl
  | cons reading rest ih =>
      have here : Segment.ofReading false taken reading =
          (Segment.ofReading mustAgree taken reading).lax := by cases reading <;> rfl
      rw [segmentsFrom, here, ih]
      rfl

theorem parse_with_agreement (settings : Settings) (agreement : Bool) (text : Text) :
    parse { settings with agreement := agreement } text =
      (parse settings text).map fun layout => { layout with mustAgree := agreement } := by
  have same : Reading.ofPiece { settings with agreement := agreement } =
      Reading.ofPiece settings := rfl
  simp only [parse, same]
  cases (text.pieces settings.separator).mapM (Reading.ofPiece settings) <;> rfl

end Layout

namespace Pattern

variable {settings : Settings} {text input : Text} {pattern strict lax : Pattern}

/-- One pattern without agreement and one with it, otherwise alike. -/
structure Relaxes (lax strict : Pattern) : Prop where
  separator : lax.settings.separator = strict.settings.separator
  segments : lax.segments = strict.segments.map Segment.lax
  agreement : lax.settings.agreement = false

theorem relaxes_of_compile
    (strictly : compile { settings with agreement := true } text = .ok strict)
    (laxly : compile { settings with agreement := false } text = .ok lax) :
    lax.Relaxes strict := by
  obtain ⟨sameText, sameSettings⟩ := of_compile strictly
  obtain ⟨laxText, laxSettings⟩ := of_compile laxly
  have parsed := strict.parsed
  have parsedLax := lax.parsed
  rw [sameText, sameSettings, Layout.parse_with_agreement] at parsed
  rw [laxText, laxSettings, Layout.parse_with_agreement] at parsedLax
  cases read : Layout.parse settings text with
  | error fault =>
      rw [read] at parsed
      cases parsed
  | ok layout =>
      rw [read] at parsed parsedLax
      refine ⟨by rw [laxSettings, sameSettings], ?_, by rw [laxSettings]⟩
      rw [segments, segments, ← Except.ok.inj parsed, ← Except.ok.inj parsedLax]
      exact Layout.segmentsFrom_lax true 0 layout.readings

namespace Relaxes

theorem unchecked (relaxes : lax.Relaxes strict) : Search.Unchecked lax.segments := by
  intro key mustAgree member
  rw [mustAgree_of_mem_segments member, relaxes.agreement]

theorem isSome_capture? (relaxes : lax.Relaxes strict)
    (found : (strict.capture? input).isSome) : (lax.capture? input).isSome := by
  obtain ⟨captures, found⟩ := Option.isSome_iff_exists.1 found
  obtain ⟨blocks, earliest, _⟩ := Search.earliest_of_captures? strict.separator_ne_nil rfl found
  obtain ⟨cut, _⟩ := earliest.allowed
  have dealt : Dealt lax.segments blocks := relaxes.segments ▸ Cut.dealt_lax cut.dealt
  have steady := Search.steady_of_unchecked_segments relaxes.unchecked
  refine (Search.isSome_captures?_iff lax.separator_ne_nil rfl steady).2 ⟨blocks, ⟨dealt, ?_⟩, ?_⟩
  · exact cut.whole.trans (congrArg _ relaxes.separator.symm)
  · exact Search.agrees_of_unchecked relaxes.unchecked

theorem capture?_of_univocal {bindings : Bindings} (relaxes : lax.Relaxes strict)
    (matched : (lax.search input true).run.verdict = some (.matched bindings))
    (univocal : Univocal (bindings.texts input)) :
    lax.capture? input = some (bindings.captures input) ∧
      strict.capture? input = some (bindings.captures input) := by
  have dealt : deal true lax.settings.separator lax.segments
      (input.pieces lax.settings.separator) = some (bindings.texts input).reverse :=
    Search.deal_of_matched lax.separator_ne_nil matched
  have dealtStrict : deal true strict.settings.separator strict.segments
      (input.pieces strict.settings.separator) = some (bindings.texts input).reverse := by
    apply Commitment.deal_of_lax
    · rw [← relaxes.segments, ← relaxes.separator, dealt]
    · intro key text other here there
      exact univocal key text other (List.mem_reverse.1 here) (List.mem_reverse.1 there)
  refine ⟨?_, ?_⟩
  · rw [capture?_eq_map_deal, dealt, Option.map_some, List.reverse_reverse, Bindings.captures]
  · rw [capture?_eq_map_deal, dealtStrict, Option.map_some, List.reverse_reverse,
      Bindings.captures]

end Relaxes

/-- Settings that differ in agreement alone compile the same texts.  With agreement a
pattern accepts no input that it does not accept without.  If the search without agreement
binds no key to two texts, the captures are the same. -/
theorem compile_with_agreement (settings : Settings) (text : Text) :
    let strictly := compile { settings with agreement := true } text
    let laxly := compile { settings with agreement := false } text
    (∀ fault, strictly = .error fault ↔ laxly = .error fault) ∧
      ∀ strict lax, strictly = .ok strict → laxly = .ok lax → ∀ input,
        (strict.accepts input = true → lax.accepts input = true) ∧
        ((strict.capture? input).isSome → (lax.capture? input).isSome) ∧
        ∀ bindings, (lax.search input true).run.verdict = some (.matched bindings) →
          Univocal (bindings.texts input) →
          lax.capture? input = some (bindings.captures input) ∧
            strict.capture? input = some (bindings.captures input) := by
  intro strictly laxly
  refine ⟨?_, ?_⟩
  · intro fault
    have fault?_eq : Settings.fault? { settings with agreement := true } =
        Settings.fault? { settings with agreement := false } := rfl
    simp only [strictly, laxly, compile_eq_error_iff, fault?_eq, Layout.parse_with_agreement]
    cases Layout.parse settings text <;> simp [Except.map]
  · intro strict lax compiled compiledLax input
    have relaxes := relaxes_of_compile compiled compiledLax
    refine ⟨?_, relaxes.isSome_capture?, ?_⟩
    · rw [accepts_eq_isSome_capture?, accepts_eq_isSome_capture?]
      exact relaxes.isSome_capture?
    · intro bindings matched univocal
      exact relaxes.capture?_of_univocal matched univocal

/-- A pattern with a key on both sides of its wildcard, with agreement or without. -/
def echoing (agreement : Bool) : Pattern where
  text := ":x/*/:x".toList
  settings := { agreement }
  layout :=
    { readings := [.parameter ['x'], .wildcard, .parameter ['x']], mustAgree := agreement }
  accepted := by cases agreement <;> decide
  parsed := rfl

/-- The wildcard grows until the key is bound to the same text again. -/
theorem compile_with_agreement_echoing :
    let input : Text := "1/b/2/1".toList
    let bindings : Bindings :=
      { enabled := true, entries := [(['x'], ⟨0, 1⟩), ("$0".toList, ⟨2, 5⟩), (['x'], ⟨6, 7⟩)] }
    compile { agreement := true } ":x/*/:x".toList = .ok (echoing true) ∧
      compile { agreement := false } ":x/*/:x".toList = .ok (echoing false) ∧
      (echoing true).accepts input = true ∧ (echoing false).accepts input = true ∧
      ((echoing false).search input true).run.verdict = some (.matched bindings) ∧
      Univocal (bindings.texts input) ∧
      (echoing true).capture? input = some (bindings.captures input) := by
  intro input bindings
  have compiled : compile { agreement := true } ":x/*/:x".toList = .ok (echoing true) := rfl
  have compiledLax : compile { agreement := false } ":x/*/:x".toList = .ok (echoing false) := rfl
  have accepted : (echoing true).accepts input = true := by decide
  have matched : ((echoing false).search input true).run.verdict = some (.matched bindings) := by
    decide
  have univocal : Univocal (bindings.texts input) := by decide
  obtain ⟨fewer, _, same⟩ :=
    (compile_with_agreement {} ":x/*/:x".toList).2 _ _ compiled compiledLax input
  exact ⟨compiled, compiledLax, accepted, fewer accepted, matched, univocal,
    (same bindings matched univocal).2⟩

end Pattern

end PathPattern
