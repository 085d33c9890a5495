import PathPattern.Proofs.Commitment.Remainder
import PathPattern.Proofs.Search.Soundness
import PathPattern.Proofs.Text.Joining

namespace PathPattern.Search

open Commitment (remember)

variable {search : Search} {key : Text} {front : List Segment} {captures : Captures}

theorem ofList_reverse_remember (key text : Text) (bound : Commitment.Bound) :
    Captures.ofList (remember true (some key) text bound).reverse =
      (Captures.ofList bound.reverse).insert key text := by
  simp only [remember, if_true, List.reverse_cons, Captures.ofList_concat]

/-- An input falls apart where the wildcard in the last place begins, and any text can
stand there. -/
theorem exists_last_of_captures? (separated : search.separator ≠ [])
    (capturing : search.capturing = true) (terminal : search.segments = front ++ [.wildcard key])
    (found : search.captures? = some captures) :
    ∃ head last, search.input = head ++ last ∧ captures.get? key = some last ∧
      ∀ other, { search with input := head ++ other }.captures? =
        some (captures.insert key other) := by
  rw [captures?_of_capturing separated capturing, Option.map_eq_some_iff] at found
  obtain ⟨known, dealt, rfl⟩ := found
  rw [terminal] at dealt
  obtain ⟨pieces, rest, before, divided, more, rfl, replaced⟩ :=
    Commitment.remainder_of_deal dealt
  obtain ⟨head, whole, cutAgain⟩ := Text.exists_front_of_pieces separated more divided
  refine ⟨head, search.separator.intercalate rest, whole, ?_, ?_⟩
  · rw [ofList_reverse_remember, Captures.get?_insert, if_pos rfl]
  · intro other
    have someOther : other.pieces search.separator ≠ [] := Text.pieces_ne_nil _ _
    let again : Search := { search with input := head ++ other }
    have dealtAgain : again.captures? = _ := captures?_of_capturing separated capturing
    rw [dealtAgain, terminal, cutAgain, replaced _ someOther, Option.map_some,
      ofList_reverse_remember, ofList_reverse_remember, Captures.insert_insert,
      Text.intercalate_pieces]

/-- Where the last segment is a wildcard, its text can be replaced by any other, also one
that is empty, holds separators, or would go on with a part of one.  The captures stay as
they are, but for the new text of its key. -/
theorem captures?_replace_last {settings : Settings} {front : List Segment}
    {key head last : Text} {captures : Captures} (separated : settings.separator ≠ [])
    (found : (Search.of settings (front ++ [.wildcard key]) (head ++ last) true).captures? =
      some captures)
    (bound : captures.get? key = some last) (other : Text) :
    (Search.of settings (front ++ [.wildcard key]) (head ++ other) true).captures? =
      some (captures.insert key other) := by
  obtain ⟨before, rest, divided, here, replaced⟩ :=
    exists_last_of_captures? separated rfl rfl found
  obtain rfl : last = rest := Option.some.inj (bound.symm.trans here)
  obtain rfl : head = before := List.append_cancel_right divided
  exact replaced other

/-- The separator overlaps itself, and the new text goes on with a part of it.  The first
wildcard has grown before the last one is reached. -/
theorem captures?_replace_last_overlapping :
    let settings : Settings := { separator := "::".toList }
    let front : List Segment := [.wildcard ['v'], .literal "x".toList]
    let captures : Captures := ⟨[(['v'], "a::b".toList), (['w'], "end".toList)]⟩
    settings.separator ≠ [] ∧
      (Search.of settings (front ++ [.wildcard ['w']]) ("a::b::x::".toList ++ "end".toList)
        true).captures? = some captures ∧
      captures.get? ['w'] = some "end".toList ∧
      (Search.of settings (front ++ [.wildcard ['w']]) ("a::b::x::".toList ++ ":x::".toList)
        true).captures? = some ⟨[(['v'], "a::b".toList), (['w'], ":x::".toList)]⟩ := by
  intro settings front captures
  have separated : settings.separator ≠ [] := by decide
  have found : (Search.of settings (front ++ [.wildcard ['w']])
      ("a::b::x::".toList ++ "end".toList) true).captures? = some captures := by decide
  have bound : captures.get? ['w'] = some "end".toList := by decide
  exact ⟨separated, found, bound, captures?_replace_last separated found bound ":x::".toList⟩

end PathPattern.Search
