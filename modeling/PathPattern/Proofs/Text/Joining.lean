import PathPattern.Proofs.Text.Pieces

namespace PathPattern.Text

/-! # Joining texts so that they are the pieces again

A separator that overlaps itself can be found across the end of a text and the
separator behind it.  A text is unbroken if that does not happen.  Lists whose texts are
unbroken up to the last one are just the lists of pieces: joined, they are cut into the
same texts again.
-/

variable {separator text piece front back : Text} {pieces : List Text}

/-- In front of a separator, a text is cut behind its last character and not before. -/
def Unbroken (separator text : Text) : Prop :=
  (text ++ separator).breakAt? separator = some (text, [])

instance decidableUnbroken (separator text : Text) : Decidable (Unbroken separator text) :=
  inferInstanceAs (Decidable ((text ++ separator).breakAt? separator = some (text, [])))

theorem Unbroken.breakAt?_append (unbroken : Unbroken separator text) (more : Text) :
    (text ++ separator ++ more).breakAt? separator = some (text, more) :=
  Text.breakAt?_append unbroken more

theorem unbroken_of_breakAt? (found : text.breakAt? separator = some (front, back)) :
    Unbroken separator front := by
  obtain ⟨whole, leftmost⟩ := breakAt?_eq_some_iff.1 found
  refine breakAt?_eq_some_iff.2 ⟨(List.append_nil _).symm, ?_⟩
  intro first tail divided
  exact leftmost first (tail ++ back) (by rw [whole, divided, List.append_assoc])

theorem Unbroken.breakAt?_eq_none (unbroken : Unbroken separator text)
    (separated : separator ≠ []) : text.breakAt? separator = none := by
  cases found : text.breakAt? separator with
  | none => rfl
  | some cut =>
      have again := Text.breakAt?_append found separator
      rw [show _ = _ from unbroken] at again
      simp [separated] at again

theorem unbroken_singleton {c : Char} (separated : separator ≠ [])
    (other : separator.head? ≠ some c) : Unbroken separator [c] := by
  refine breakAt?_eq_some_iff.2 ⟨(List.append_nil _).symm, ?_⟩
  intro first tail whole
  cases first with
  | cons d first => simp
  | nil =>
      obtain ⟨d, rest, rfl⟩ := List.exists_cons_of_ne_nil separated
      have same : c = d := (List.cons.inj whole).1
      exact absurd (congrArg some same.symm) other

theorem exists_unbroken_pair (separated : separator ≠ []) :
    ∃ first second : Char, first ≠ second ∧ Unbroken separator [first] ∧
      Unbroken separator [second] := by
  obtain ⟨first, second, differ, firstFree, secondFree⟩ : ∃ first second : Char,
      first ≠ second ∧ separator.head? ≠ some first ∧ separator.head? ≠ some second := by
    by_cases startsA : separator.head? = some 'a'
    · exact ⟨'b', 'c', by decide, by simp [startsA], by simp [startsA]⟩
    · by_cases startsB : separator.head? = some 'b'
      · exact ⟨'a', 'c', by decide, startsA, by simp [startsB]⟩
      · exact ⟨'a', 'b', by decide, startsA, startsB⟩
  exact ⟨first, second, differ, unbroken_singleton separated firstFree,
    unbroken_singleton separated secondFree⟩

/-- Every text but the last is unbroken, and the last one holds no separator. -/
def Separable (separator : Text) : List Text → Prop
  | [] => False
  | [piece] => piece.breakAt? separator = none
  | piece :: next :: rest => Unbroken separator piece ∧ Separable separator (next :: rest)

theorem separable_cons (nonempty : pieces ≠ []) :
    Separable separator (piece :: pieces) ↔
      Unbroken separator piece ∧ Separable separator pieces := by
  cases pieces with
  | nil => exact absurd rfl nonempty
  | cons next rest => rfl

theorem Separable.ne_nil (separable : Separable separator pieces) : pieces ≠ [] := by
  rintro rfl
  exact separable

theorem separable_pieces (separated : separator ≠ []) (text : Text) :
    Separable separator (text.pieces separator) := by
  generalize cut : text.pieces separator = pieces
  induction pieces generalizing text with
  | nil => exact pieces_ne_nil text separator cut
  | cons piece rest ih =>
      cases found : text.breakAt? separator with
      | none =>
          rw [pieces_of_breakAt?_eq_none separated found, List.cons.injEq] at cut
          obtain ⟨rfl, rfl⟩ := cut
          exact found
      | some parts =>
          obtain ⟨front, back⟩ := parts
          rw [pieces_of_breakAt?_eq_some separated found, List.cons.injEq] at cut
          obtain ⟨rfl, tail⟩ := cut
          have separable := ih back tail
          exact (separable_cons separable.ne_nil).2 ⟨unbroken_of_breakAt? found, separable⟩

/-- The first pieces of a text do not depend on what stands behind them. -/
theorem exists_front_of_pieces {before after : List Text} (separated : separator ≠ [])
    (more : after ≠ []) (whole : text.pieces separator = before ++ after) :
    ∃ front, text = front ++ separator.intercalate after ∧
      ∀ other : Text, Text.pieces (front ++ other) separator =
        before ++ other.pieces separator := by
  induction before generalizing text with
  | nil =>
      rw [List.nil_append] at whole
      exact ⟨[], by rw [List.nil_append, ← whole, intercalate_pieces], fun _ => rfl⟩
  | cons piece before ih =>
      cases found : text.breakAt? separator with
      | none =>
          rw [pieces_of_breakAt?_eq_none separated found] at whole
          simp only [List.cons_append, List.cons.injEq, List.nil_eq_append_iff] at whole
          exact absurd whole.2.2 more
      | some cut =>
          obtain ⟨first, back⟩ := cut
          rw [pieces_of_breakAt?_eq_some separated found, List.cons_append, List.cons.injEq] at whole
          obtain ⟨rfl, tail⟩ := whole
          obtain ⟨front, rfl, replaced⟩ := ih tail
          refine ⟨first ++ separator ++ front, ?_, ?_⟩
          · simpa using breakAt?_whole found
          · intro other
            have again := (unbroken_of_breakAt? found).breakAt?_append (front ++ other)
            rw [List.append_assoc, pieces_of_breakAt?_eq_some separated again, replaced,
              List.cons_append]

/-- Pieces stay separable if some of them become unbroken texts. -/
theorem Separable.replace {others : List Text} (separable : Separable separator pieces)
    (separated : separator ≠ []) (size : others.length = pieces.length)
    (kept : ∀ (place : Nat) other, others[place]? = some other →
      pieces[place]? = some other ∨ Unbroken separator other) :
    Separable separator others := by
  induction pieces generalizing others with
  | nil => exact separable.elim
  | cons piece rest ih =>
      cases others with
      | nil => simp at size
      | cons other others =>
          have sizeRest : others.length = rest.length := by simpa using size
          have here : piece = other ∨ Unbroken separator other := by simpa using kept 0 other rfl
          cases rest with
          | nil =>
              obtain rfl := List.eq_nil_of_length_eq_zero sizeRest
              rcases here with rfl | unbroken
              · exact separable
              · exact unbroken.breakAt?_eq_none separated
          | cons next rest =>
              obtain ⟨unbrokenPiece, behind⟩ := separable
              have separableRest := ih behind sizeRest fun place => kept (place + 1)
              refine (separable_cons separableRest.ne_nil).2 ⟨?_, separableRest⟩
              rcases here with rfl | unbroken
              · exact unbrokenPiece
              · exact unbroken

theorem pieces_intercalate (separated : separator ≠ []) (separable : Separable separator pieces) :
    Text.pieces (separator.intercalate pieces) separator = pieces := by
  induction pieces with
  | nil => exact separable.elim
  | cons piece rest ih =>
      cases rest with
      | nil => rw [List.intercalate_singleton, pieces_of_breakAt?_eq_none separated separable]
      | cons next rest =>
          obtain ⟨unbroken, behind⟩ := separable
          rw [List.intercalate_cons_cons, pieces_of_breakAt?_eq_some separated
            (unbroken.breakAt?_append _), ih behind]

end PathPattern.Text
