import Mathlib.Data.List.Basic
import PathPattern.Text.Pieces

namespace PathPattern.Text

variable {text mark front back : Text}

theorem isPrefixOf?_eq_none_iff : mark.isPrefixOf? text = none ↔ ¬ mark <+: text := by
  rw [← Option.not_isSome_iff_eq_none, List.isSome_isPrefixOf?_eq_isPrefixOf,
    List.isPrefixOf_iff_prefix]

theorem isSuffixOf?_eq_none_iff : mark.isSuffixOf? text = none ↔ ¬ mark <:+ text := by
  rw [← Option.not_isSome_iff_eq_none, List.isSome_isSuffixOf?_eq_isSuffixOf,
    List.isSuffixOf_iff_suffix]

theorem dropPrefix?_eq_isPrefixOf? (text mark : Text) :
    text.dropPrefix? mark = mark.isPrefixOf? text := by
  ext rest
  rw [List.dropPrefix?_eq_some_iff, List.isPrefixOf?_eq_some_iff_append_eq]
  simp only [beq_iff_eq, exists_eq_right]
  exact eq_comm

theorem dropInfix?_go_eq (text mark passed : Text) :
    List.dropInfix?.go mark text passed =
      (text.breakAt? mark).map fun (front, back) => (passed.reverse ++ front, back) := by
  fun_induction breakAt? text mark generalizing passed with
  | case1 mark empty => simp [List.dropInfix?.go, empty]
  | case2 mark nonempty => simp [List.dropInfix?.go, nonempty]
  | case3 c rest mark back matched =>
      simp [List.dropInfix?.go, dropPrefix?_eq_isPrefixOf?, matched]
  | case4 c rest mark unmatched ih =>
      simp [List.dropInfix?.go, dropPrefix?_eq_isPrefixOf?, unmatched, ih, Function.comp_def]

theorem breakAt?_eq_dropInfix? (text mark : Text) :
    text.breakAt? mark = List.dropInfix? text mark := by
  simp [List.dropInfix?, dropInfix?_go_eq]

/-- A text is cut around a mark if the mark stands nowhere further to the left. -/
theorem breakAt?_eq_some_iff : text.breakAt? mark = some (front, back) ↔
    text = front ++ mark ++ back ∧
      ∀ first tail, text = first ++ mark ++ tail → front.length ≤ first.length := by
  rw [breakAt?_eq_dropInfix?, List.dropInfix?_eq_some_iff]
  simp only [beq_iff_eq, exists_eq_right, ge_iff_le]
  refine and_congr_right fun _ => ⟨?_, ?_⟩
  · intro least first tail whole
    exact least first mark tail whole rfl
  · rintro least first _ tail whole rfl
    exact least first tail whole

theorem breakAt?_eq_none_iff : text.breakAt? mark = none ↔ ¬ mark <:+: text := by
  fun_induction breakAt? text mark with
  | case1 mark empty => simp_all
  | case2 mark nonempty => simp_all
  | case3 c rest mark back matched =>
      have begins : mark <+: c :: rest :=
        ⟨back, List.isPrefixOf?_eq_some_iff_append_eq.1 matched⟩
      simp [begins.isInfix]
  | case4 c rest mark unmatched ih =>
      simp [List.infix_cons_iff, isPrefixOf?_eq_none_iff.1 unmatched, ih]

theorem breakAt?_whole (found : text.breakAt? mark = some (front, back)) :
    text = front ++ mark ++ back := (breakAt?_eq_some_iff.1 found).1

/-- Nothing that follows a text moves the leftmost mark in it. -/
theorem breakAt?_append (found : text.breakAt? mark = some (front, back)) (more : Text) :
    (text ++ more).breakAt? mark = some (front, back ++ more) := by
  obtain ⟨whole, leftmost⟩ := breakAt?_eq_some_iff.1 found
  refine breakAt?_eq_some_iff.2 ⟨by rw [whole, List.append_assoc], ?_⟩
  intro first tail divided
  refine Nat.le_of_not_lt fun nearer => ?_
  -- A mark further to the left would end before the one that was found does.
  have within : (first ++ mark).length ≤ text.length := by
    simp only [whole, List.length_append]
    omega
  obtain ⟨rest, inside⟩ :=
    List.prefix_of_prefix_length_le ⟨tail, divided.symm⟩ ⟨more, rfl⟩ within
  exact Nat.not_le_of_lt nearer (leftmost first rest inside.symm)

theorem includes_iff {text mark : Text} : text.includes mark = true ↔ mark <:+: text := by
  rw [← Decidable.not_iff_not, ← breakAt?_eq_none_iff, includes]
  simp

theorem piecesUpTo_of_length_le {separator text : Text} {limit : Nat}
    (nonempty : separator ≠ []) (enough : text.length ≤ limit) :
    piecesUpTo separator limit text = piecesUpTo separator text.length text := by
  suffices all : ∀ bound (text : Text) limit other, text.length ≤ bound →
      text.length ≤ limit → text.length ≤ other →
      piecesUpTo separator limit text = piecesUpTo separator other text from
    all text.length text limit text.length (Nat.le_refl _) enough (Nat.le_refl _)
  intro bound
  induction bound with
  | zero =>
      intro text limit other short _ _
      obtain rfl : text = [] := List.eq_nil_of_length_eq_zero (by omega)
      have absent : breakAt? [] separator = none := by simp [breakAt?, nonempty]
      cases limit <;> cases other <;> simp [piecesUpTo, absent]
  | succ bound ih =>
      intro text limit other short first second
      cases found : text.breakAt? separator with
      | none => cases limit <;> cases other <;> simp [piecesUpTo, found]
      | some cut =>
          obtain ⟨front, back⟩ := cut
          have size := congrArg List.length (breakAt?_whole found)
          have positive := List.length_pos_iff.2 nonempty
          simp only [List.length_append] at size
          obtain ⟨limit, rfl⟩ : ∃ less, limit = less + 1 := ⟨limit - 1, by omega⟩
          obtain ⟨other, rfl⟩ : ∃ less, other = less + 1 := ⟨other - 1, by omega⟩
          simp only [piecesUpTo, found]
          rw [ih back limit other (by omega) (by omega) (by omega)]

theorem pieces_of_breakAt?_eq_none {separator text : Text} (nonempty : separator ≠ [])
    (absent : text.breakAt? separator = none) : text.pieces separator = [text] := by
  simp only [pieces, List.isEmpty_iff, nonempty, if_false]
  cases text.length <;> simp [piecesUpTo, absent]

theorem pieces_of_breakAt?_eq_some {separator text front back : Text}
    (nonempty : separator ≠ []) (found : text.breakAt? separator = some (front, back)) :
    text.pieces separator = front :: back.pieces separator := by
  have size := congrArg List.length (breakAt?_whole found)
  have positive := List.length_pos_iff.2 nonempty
  simp only [List.length_append] at size
  obtain ⟨limit, enough⟩ : ∃ less, text.length = less + 1 := ⟨text.length - 1, by omega⟩
  simp only [pieces, List.isEmpty_iff, nonempty, if_false, enough, piecesUpTo, found]
  rw [piecesUpTo_of_length_le nonempty (by omega)]

theorem pieces_ne_nil (text separator : Text) : text.pieces separator ≠ [] := by
  by_cases empty : separator = []
  · simp [pieces, empty]
  · cases found : text.breakAt? separator with
    | none => simp [pieces_of_breakAt?_eq_none empty found]
    | some cut => simp [pieces_of_breakAt?_eq_some empty found]

/-- The pieces of a text, joined by the separator, are the text. -/
theorem intercalate_pieces (text separator : Text) :
    separator.intercalate (text.pieces separator) = text := by
  by_cases empty : separator = []
  · subst empty
    have characters (rest : Text) :
        List.intercalate [] (rest.map (fun c => [c]) ++ [[]]) = rest := by
      induction rest with
      | nil => rfl
      | cons c rest ih =>
          cases rest with
          | nil => rfl
          | cons d rest =>
              simp only [List.map_cons, List.cons_append, List.intercalate_cons_cons] at ih ⊢
              rw [ih]
              rfl
    have start : List.intercalate [] ([] :: (text.map (fun c => [c]) ++ [[]])) =
        List.intercalate [] (text.map (fun c => [c]) ++ [[]]) := by
      cases text <;> simp
    simpa [pieces] using start.trans (characters text)
  · suffices all : ∀ bound (text : Text), text.length ≤ bound →
        separator.intercalate (text.pieces separator) = text from
      all text.length text (Nat.le_refl _)
    intro bound
    induction bound with
    | zero =>
        intro text short
        obtain rfl : text = [] := List.eq_nil_of_length_eq_zero (by omega)
        rw [pieces_of_breakAt?_eq_none empty (by simp [breakAt?, empty]),
          List.intercalate_singleton]
    | succ bound ih =>
        intro text short
        cases found : text.breakAt? separator with
        | none => rw [pieces_of_breakAt?_eq_none empty found, List.intercalate_singleton]
        | some cut =>
            obtain ⟨front, back⟩ := cut
            have whole := breakAt?_whole found
            have size := congrArg List.length whole
            have positive := List.length_pos_iff.2 empty
            simp only [List.length_append] at size
            have inner := ih back (by omega)
            rw [pieces_of_breakAt?_eq_some empty found, whole]
            cases tail : back.pieces separator with
            | nil => exact absurd tail (pieces_ne_nil back separator)
            | cons piece rest => rw [List.intercalate_cons_cons, ← tail, inner]

end PathPattern.Text
