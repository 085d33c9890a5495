import PathPattern.Proofs.Pattern.Instantiation
import PathPattern.Proofs.Search.Standing

namespace PathPattern.Pattern

open Cut (Earliest LastPlace keyAt textAt)
open Search (AgreeingCut)

variable {pattern : Pattern} {place number : Nat} {key : Text}

/-- Two places with one key both have it as a name. -/
def SharesOnlyNames (pattern : Pattern) : Prop :=
  ∀ first second key, first ≠ second → keyAt pattern.segments first = some key →
    keyAt pattern.segments second = some key →
      pattern.layout.NamedAt first key ∧ pattern.layout.NamedAt second key

theorem keyAt_of_unnamedAt (unnamed : pattern.layout.UnnamedAt place number) :
    keyAt pattern.segments place = some (numberedKey number) :=
  Layout.keyAt_segments_iff.2 (.inr ⟨number, unnamed, rfl⟩)

theorem namesApart_iff_sharesOnlyNames : pattern.NamesApart ↔ pattern.SharesOnlyNames := by
  refine ⟨?_, ?_⟩
  · intro names first second key differ here there
    have namedAt {place other : Nat} (differ : other ≠ place)
        (own : keyAt pattern.segments place = some key)
        (alike : keyAt pattern.segments other = some key) : pattern.layout.NamedAt place key := by
      rcases Layout.keyAt_segments_iff.1 own with named | ⟨number, unnamed, rfl⟩
      · exact named
      · exact absurd (names.place_eq unnamed alike) differ
    exact ⟨namedAt differ.symm here there, namedAt differ there here⟩
  · rintro shares name member number below rfl
    obtain ⟨first, named⟩ := List.getElem?_of_mem member
    obtain ⟨second, unnamed⟩ := Layout.exists_unnamedAt below
    have differ : first ≠ second := by
      rintro rfl
      exact Layout.NamedAt.not_unnamedAt named unnamed
    obtain ⟨_, namedToo⟩ := shares first second _ differ
      (Layout.keyAt_segments_iff.2 (.inl named)) (keyAt_of_unnamedAt unnamed)
    exact namedToo.not_unnamedAt unnamed

/-- A key that is bound is the key of a place in front of the one at hand. -/
theorem exists_earlier_of_bound {input : Text} {capturing : Bool} {state : Search.State}
    (reaches : (pattern.search input capturing).Reaches state)
    (bound : (state.bindings.latest? key).isSome = true) :
    ∃ earlier < state.index, keyAt pattern.segments earlier = some key := by
  have member : key ∈ state.bindings.entries.map Prod.fst := by
    obtain ⟨entry, listed, same⟩ := List.lookup_isSome_iff.1 bound
    rw [eq_of_beq same]
    exact List.mem_map_of_mem (List.mem_reverse.1 listed)
  rw [Search.keys_of_reaches pattern.separator_ne_nil pattern.segments_ne_nil reaches] at member
  split at member
  · obtain ⟨segment, passed, own⟩ := List.mem_filterMap.1 member
    obtain ⟨earlier, within, here⟩ := List.mem_take_iff_getElem.1 passed
    obtain ⟨before, inside⟩ := Nat.lt_min.1 within
    have found : pattern.segments[earlier]? = some segment :=
      List.getElem?_eq_some_iff.2 ⟨inside, here⟩
    exact ⟨earlier, before, by simpa [keyAt, found] using own⟩
  · simp at member

/-- In a pattern without names like its numbered keys, and in no other, only names are
shared.  Then a numbered key is captured with the text of the one place that it belongs
to, and a key that is bound when its turn comes again is a name wherever it stands. -/
theorem numbered_keys_fresh (pattern : Pattern) :
    (pattern.NamesApart ↔ pattern.SharesOnlyNames) ∧
      (pattern.NamesApart →
        (∀ input captures, pattern.capture? input = some captures →
          ∃ blocks, Earliest pattern.segments
              (AgreeingCut pattern.settings.separator pattern.segments input) blocks ∧
            ∀ number < pattern.numbered, ∃ place text,
              pattern.layout.UnnamedAt place number ∧
                textAt pattern.settings.separator blocks place = some text ∧
                captures.get? (numberedKey number) = some text) ∧
        ∀ input capturing state key, (pattern.search input capturing).Reaches state →
          keyAt pattern.segments state.index = some key →
          (state.bindings.latest? key).isSome = true →
          ∀ place, keyAt pattern.segments place = some key → pattern.layout.NamedAt place key) := by
  refine ⟨namesApart_iff_sharesOnlyNames, fun names => ⟨?_, ?_⟩⟩
  · intro input captures found
    obtain ⟨blocks, earliest, rfl⟩ :=
      Search.earliest_of_captures? pattern.separator_ne_nil rfl found
    refine ⟨blocks, earliest, ?_⟩
    intro number below
    have size := Cut.length_of_dealt earliest.allowed.1.dealt
    obtain ⟨place, unnamed⟩ := Layout.exists_unnamedAt below
    have here := keyAt_of_unnamedAt unnamed
    have last : LastPlace pattern.segments (numberedKey number) place := by
      refine ⟨here, ?_⟩
      intro behind after alike
      exact absurd (names.place_eq unnamed alike) (Nat.ne_of_gt after)
    obtain ⟨text, textHere⟩ := Cut.exists_textAt size here
    exact ⟨place, text, unnamed, textHere, (Cut.get?_captures_iff size).2 ⟨place, last, textHere⟩⟩
  · intro input capturing state key reaches here bound place alike
    obtain ⟨earlier, before, there⟩ := exists_earlier_of_bound reaches bound
    have shares := namesApart_iff_sharesOnlyNames.1 names
    by_cases same : place = state.index
    · rw [same]
      exact (shares earlier state.index key (Nat.ne_of_lt before) there here).2
    · exact (shares place state.index key same alike here).1

/-- A pattern with two places for one name, of which the first is compared with the second,
and two numbered keys in front of them. -/
def repeating : Pattern where
  text := "<>/*/<x>/<x>".toList
  settings := { opening := ['<'], closing := ['>'], agreement := true }
  layout :=
    { readings := [.anonymous, .wildcard, .parameter ['x'], .parameter ['x']]
      mustAgree := true }
  accepted := by decide
  parsed := rfl

/-- The wildcard grows once, and the text that the name had then is undone. -/
theorem numbered_keys_fresh_repeating :
    let input : Text := "a/b/c/d/d".toList
    let captures : Captures :=
      ⟨[("$0".toList, ['a']), ("$1".toList, "b/c".toList), (['x'], ['d'])]⟩
    repeating.NamesApart ∧ repeating.SharesOnlyNames ∧
      repeating.capture? input = some captures ∧
      (∃ place text, repeating.layout.UnnamedAt place 1 ∧
        captures.get? (numberedKey 1) = some text) ∧
      ∃ state, (repeating.search input true).Reaches state ∧
        keyAt repeating.segments state.index = some ['x'] ∧
        (state.bindings.latest? ['x']).isSome = true ∧ repeating.layout.NamedAt 2 ['x'] := by
  intro input captures
  have names : repeating.NamesApart := by decide
  obtain ⟨shares, fresh⟩ := numbered_keys_fresh repeating
  obtain ⟨captured, passed⟩ := fresh names
  have found : repeating.capture? input = some captures := by decide
  obtain ⟨blocks, _, each⟩ := captured input captures found
  obtain ⟨place, text, unnamed, _, entry⟩ := each 1 (by decide)
  let search := repeating.search input true
  obtain ⟨state, reaches, here, bound⟩ : ∃ state, search.Reaches state ∧
      keyAt repeating.segments state.index = some ['x'] ∧
      (state.bindings.latest? ['x']).isSome = true :=
    ⟨_, .advance (.advance (.advance .initial rfl) rfl) rfl, rfl, rfl⟩
  exact ⟨names, shares.1 names, found, ⟨place, text, unnamed, entry⟩, state, reaches, here,
    bound, passed input true state ['x'] reaches here bound 2 rfl⟩

/-- A pattern whose name is spelt like the key of its wildcard. -/
def clashing (agreement : Bool) : Pattern where
  text := "*/:$0".toList
  settings := { agreement }
  layout := { readings := [.wildcard, .parameter "$0".toList], mustAgree := agreement }
  accepted := Settings.fault?_default agreement
  parsed := by cases agreement <;> rfl

/-- The wildcard has the text `a` in every cut, and is captured with the text `b` of the
name.  With agreement the two are compared, and there is no match. -/
theorem clashing_overwrites_wildcard :
    let input : Text := "a/b".toList
    ¬ (clashing false).SharesOnlyNames ∧ (clashing false).layout.UnnamedAt 0 0 ∧
      (∀ blocks, Cut (clashing false).segments (input.pieces ['/']) blocks →
        textAt ['/'] blocks 0 = some ['a']) ∧
      (clashing false).capture? input = some ⟨[(numberedKey 0, ['b'])]⟩ ∧
      (clashing true).capture? input = none := by
  intro input
  refine ⟨?_, ⟨⟨.wildcard, rfl, rfl⟩, rfl⟩, ?_, by decide, by decide⟩
  · intro shares
    obtain ⟨named, _⟩ := shares 0 1 (numberedKey 0) (by decide) rfl rfl
    cases named
  · intro blocks cut
    have split : input.pieces ['/'] = [['a'], ['b']] := by decide
    obtain ⟨dealt, whole⟩ := cut
    cases dealt with
    | @cons _ _ block _ _ _ rest =>
        cases rest with
        | @last _ own suits =>
            cases own with
            | nil => exact suits.elim
            | cons piece more =>
                cases more with
                | nil =>
                    have ends : block ++ [piece] = [['a']] ++ [['b']] := by
                      simpa [split] using whole
                    rw [(List.append_inj' ends rfl).1]
                    rfl
                | cons next more => exact suits.elim

end PathPattern.Pattern
