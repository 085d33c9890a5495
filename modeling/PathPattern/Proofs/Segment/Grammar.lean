import Mathlib.Logic.ExistsUnique
import PathPattern.Proofs.Layout.Rendering

namespace PathPattern

/-! # The grammar of a piece

What a piece is can be said without reading it from the left.  Each rule looks at the
whole piece and asks what stands around a name, what stands in it, and which token stands
without the other.  The rules leave out no piece and no two of them meet in one, also
where the tokens overlap in the piece or are equal or empty.
-/

namespace Reading

variable {settings : Settings} {piece name : Text}

/-- The piece is a name between the opening and the closing. -/
def Encloses (settings : Settings) (piece name : Text) : Prop :=
  piece = settings.opening ++ name ++ settings.closing

/-- A token that is not empty occurs in the name. -/
def HoldsToken (settings : Settings) (name : Text) : Prop :=
  ∃ token ∈ [settings.opening, settings.closing], token ≠ [] ∧ token <:+: name

/-- The piece has an opening, and what follows it has no closing at its end. -/
def Unterminated (settings : Settings) (piece : Text) : Prop :=
  settings.opening ≠ [] ∧
    ∃ rest, piece = settings.opening ++ rest ∧ ¬ settings.closing <:+ rest

/-- The piece has a closing at its end, and no opening at its start. -/
def Unopened (settings : Settings) (piece : Text) : Prop :=
  settings.opening ≠ [] ∧ settings.closing ≠ [] ∧ ¬ settings.opening <+: piece ∧
    settings.closing <:+ piece

theorem ofPiece_of_wildcard (same : piece = settings.wildcard) :
    ofPiece settings piece = .ok .wildcard := by
  simp only [ofPiece, if_pos same]

theorem ofPiece_of_encloses (other : piece ≠ settings.wildcard)
    (enclosed : Encloses settings piece name) :
    ofPiece settings piece = ofName settings piece name := by
  have opened : settings.opening.isPrefixOf? piece = some (name ++ settings.closing) :=
    List.isPrefixOf?_eq_some_iff_append_eq.2 (enclosed.trans (List.append_assoc _ _ _)).symm
  have closed : settings.closing.isSuffixOf? (name ++ settings.closing) = some name :=
    List.isSuffixOf?_eq_some_iff_append_eq.2 rfl
  simp only [ofPiece, if_neg other, opened, closed]

theorem ofName_nil_of_even (even : settings.opening = [] ↔ settings.closing = []) :
    ofName settings piece [] = .ok .anonymous := by
  have same : settings.opening.isEmpty = settings.closing.isEmpty := by
    rw [Bool.eq_iff_iff, List.isEmpty_iff, List.isEmpty_iff, even]
  simp [ofName, same]

theorem ofName_nil_of_oneSided (oneSided : settings.OneSided) :
    ofName settings piece [] = .error (.nameless piece) := by
  have differ : settings.opening.isEmpty ≠ settings.closing.isEmpty := by
    rw [ne_eq, Bool.eq_iff_iff, List.isEmpty_iff, List.isEmpty_iff,
      show settings.opening = [] ↔ settings.closing ≠ [] from oneSided]
    exact not_iff_self
  simp [ofName, differ]

theorem holdsToken_iff : HoldsToken settings name ↔
    ([settings.opening, settings.closing].any fun token =>
      !token.isEmpty && name.includes token) = true := by
  simp only [HoldsToken, List.any_eq_true, Bool.and_eq_true, Bool.not_eq_true',
    List.isEmpty_eq_false_iff, Text.includes_iff]

theorem ofName_of_holdsToken (named : name ≠ []) (held : HoldsToken settings name) :
    ofName settings piece name = .error (.ambiguous piece name) := by
  simp only [ofName, List.isEmpty_iff, named, if_false, if_pos (holdsToken_iff.1 held)]

theorem ofName_of_not_holdsToken (named : name ≠ []) (clear : ¬ HoldsToken settings name) :
    ofName settings piece name = .ok (.parameter name) := by
  simp only [ofName, List.isEmpty_iff, named, if_false, if_neg (mt holdsToken_iff.2 clear)]

theorem ofPiece_of_unterminated (other : piece ≠ settings.wildcard)
    (unclosed : Unterminated settings piece) :
    ofPiece settings piece =
      .error (.unterminated piece settings.opening settings.closing) := by
  obtain ⟨someOpening, rest, whole, missing⟩ := unclosed
  simp only [ofPiece, if_neg other, List.isPrefixOf?_eq_some_iff_append_eq.2 whole.symm,
    Text.isSuffixOf?_eq_none_iff.2 missing, List.isEmpty_iff, someOpening, if_false]

theorem ofPiece_of_unopened (other : piece ≠ settings.wildcard)
    (unopened : Unopened settings piece) :
    ofPiece settings piece = .error (.unopened piece settings.opening settings.closing) := by
  obtain ⟨_, someClosing, missing, closed⟩ := unopened
  simp [ofPiece, other, Text.isPrefixOf?_eq_none_iff.2 missing, someClosing, closed]

theorem ofPiece_of_bare (other : piece ≠ settings.wildcard)
    (bare : ∀ name, ¬ Encloses settings piece name) (terminated : ¬ Unterminated settings piece)
    (opened : ¬ Unopened settings piece) : ofPiece settings piece = .ok (.literal piece) := by
  cases start : settings.opening.isPrefixOf? piece with
  | none =>
      have missing := Text.isPrefixOf?_eq_none_iff.1 start
      have someOpening : settings.opening ≠ [] := by
        intro empty
        exact missing (empty ▸ List.nil_prefix)
      have unclosed : ¬ (settings.closing ≠ [] ∧ settings.closing <:+ piece) :=
        fun closed => opened ⟨someOpening, closed.1, missing, closed.2⟩
      simpa [ofPiece, other, start] using unclosed
  | some rest =>
      have whole := (List.isPrefixOf?_eq_some_iff_append_eq.1 start).symm
      cases finish : settings.closing.isSuffixOf? rest with
      | some name =>
          rw [List.isSuffixOf?_eq_some_iff_append_eq] at finish
          exact absurd (whole.trans (by rw [← finish, List.append_assoc])) (bare name)
      | none =>
          have noOpening : settings.opening = [] := Decidable.byContradiction fun someOpening =>
            terminated ⟨someOpening, rest, whole, Text.isSuffixOf?_eq_none_iff.1 finish⟩
          simp only [ofPiece, if_neg other, start, finish, List.isEmpty_iff, if_pos noOpening]

end Reading

namespace Segment

open Reading (Encloses HoldsToken Unopened Unterminated ofName_nil_of_even ofName_nil_of_oneSided
  ofName_of_holdsToken ofName_of_not_holdsToken ofPiece_of_encloses)

variable {settings : Settings} {taken : Nat} {piece : Text}
  {outcome : Except PieceError (Segment × Nat)}

/-- The rules of the grammar.  Each one has the segment of a piece and how many numbered keys
are in use behind it, or tells why there is none, when `taken` of them are in use before. -/
inductive Rule (settings : Settings) (taken : Nat) (piece : Text) :
    Except PieceError (Segment × Nat) → Prop where
  | wildcard (same : piece = settings.wildcard) :
      Rule settings taken piece (.ok (.wildcard (numberedKey taken), taken + 1))
  | parameter {name : Text} (other : piece ≠ settings.wildcard)
      (enclosed : Encloses settings piece name) (named : name ≠ [])
      (clear : ¬ HoldsToken settings name) :
      Rule settings taken piece (.ok (.parameter name settings.agreement, taken))
  | anonymous (other : piece ≠ settings.wildcard) (enclosed : Encloses settings piece [])
      (even : settings.opening = [] ↔ settings.closing = []) :
      Rule settings taken piece
        (.ok (.parameter (numberedKey taken) settings.agreement, taken + 1))
  | nameless (other : piece ≠ settings.wildcard) (enclosed : Encloses settings piece [])
      (oneSided : settings.OneSided) : Rule settings taken piece (.error (.nameless piece))
  | ambiguous {name : Text} (other : piece ≠ settings.wildcard)
      (enclosed : Encloses settings piece name) (named : name ≠ [])
      (held : HoldsToken settings name) :
      Rule settings taken piece (.error (.ambiguous piece name))
  | unterminated (other : piece ≠ settings.wildcard) (unclosed : Unterminated settings piece) :
      Rule settings taken piece (.error (.unterminated piece settings.opening settings.closing))
  | unopened (other : piece ≠ settings.wildcard) (unopened : Unopened settings piece) :
      Rule settings taken piece (.error (.unopened piece settings.opening settings.closing))
  /-- All that is left stands for itself. -/
  | literal (other : piece ≠ settings.wildcard) (bare : ∀ name, ¬ Encloses settings piece name)
      (terminated : ¬ Unterminated settings piece) (opened : ¬ Unopened settings piece) :
      Rule settings taken piece (.ok (.literal piece, taken))

theorem exists_rule (settings : Settings) (taken : Nat) (piece : Text) :
    ∃ outcome, Rule settings taken piece outcome := by
  by_cases same : piece = settings.wildcard
  · exact ⟨_, .wildcard same⟩
  by_cases enclosed : ∃ name, Encloses settings piece name
  · obtain ⟨name, enclosed⟩ := enclosed
    by_cases named : name = []
    · subst named
      by_cases even : settings.opening = [] ↔ settings.closing = []
      · exact ⟨_, .anonymous same enclosed even⟩
      · exact ⟨_, .nameless same enclosed (by unfold Settings.OneSided; grind)⟩
    · by_cases held : HoldsToken settings name
      · exact ⟨_, .ambiguous same enclosed named held⟩
      · exact ⟨_, .parameter same enclosed named held⟩
  by_cases unclosed : Unterminated settings piece
  · exact ⟨_, .unterminated same unclosed⟩
  by_cases unopened : Unopened settings piece
  · exact ⟨_, .unopened same unopened⟩
  · exact ⟨_, .literal same (not_exists.1 enclosed) unclosed unopened⟩

/-- A piece has the outcome of the rule that it meets. -/
theorem Rule.ofPiece_eq (rule : Rule settings taken piece outcome) :
    ofPiece settings taken piece = outcome := by
  cases rule with
  | wildcard same =>
      exact ofPiece_eq_ok_iff.2 ⟨.wildcard, Reading.ofPiece_of_wildcard same, rfl, rfl⟩
  | @parameter name other enclosed named clear =>
      have read := (ofPiece_of_encloses other enclosed).trans
        (ofName_of_not_holdsToken named clear)
      exact ofPiece_eq_ok_iff.2 ⟨.parameter name, read, rfl, rfl⟩
  | anonymous other enclosed even =>
      have read := (ofPiece_of_encloses other enclosed).trans (ofName_nil_of_even even)
      exact ofPiece_eq_ok_iff.2 ⟨.anonymous, read, rfl, rfl⟩
  | nameless other enclosed oneSided =>
      rw [ofPiece_eq_error_iff, ofPiece_of_encloses other enclosed,
        ofName_nil_of_oneSided oneSided]
  | ambiguous other enclosed named held =>
      rw [ofPiece_eq_error_iff, ofPiece_of_encloses other enclosed,
        ofName_of_holdsToken named held]
  | unterminated other unclosed =>
      exact ofPiece_eq_error_iff.2 (Reading.ofPiece_of_unterminated other unclosed)
  | unopened other unopened =>
      exact ofPiece_eq_error_iff.2 (Reading.ofPiece_of_unopened other unopened)
  | literal other bare terminated opened =>
      have read := Reading.ofPiece_of_bare other bare terminated opened
      exact ofPiece_eq_ok_iff.2 ⟨.literal piece, read, rfl, rfl⟩

theorem rule_iff : ofPiece settings taken piece = outcome ↔ Rule settings taken piece outcome := by
  refine ⟨?_, Rule.ofPiece_eq⟩
  rintro rfl
  obtain ⟨outcome, rule⟩ := exists_rule settings taken piece
  rwa [rule.ofPiece_eq]

/-- Each piece meets just one rule of the grammar, whatever the tokens are, and has the outcome
of that rule.  A literal and a name take no number, a wildcard and a parameter without a name
take the next one as their key. -/
theorem ofPiece_eq_iff_rule (settings : Settings) (taken : Nat) (piece : Text) :
    (∃! outcome, Rule settings taken piece outcome) ∧
      ∀ outcome, ofPiece settings taken piece = outcome ↔ Rule settings taken piece outcome := by
  refine ⟨⟨_, rule_iff.1 rfl, ?_⟩, fun outcome => rule_iff⟩
  intro other rule
  exact rule.ofPiece_eq.symm

/-- A token that is part of both ends of a piece cannot be its opening and its closing. -/
example : Rule { opening := "ab".toList, closing := "bc".toList } 0 "abc".toList
    (.error (.unterminated "abc".toList "ab".toList "bc".toList)) :=
  rule_iff.1 rfl

end Segment

end PathPattern
