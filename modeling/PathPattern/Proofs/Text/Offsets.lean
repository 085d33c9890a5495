import Mathlib.Data.String.Basic
import PathPattern.Text.Span

namespace PathPattern

namespace Text

theorem byteSize_eq_utf8Len (text : Text) : byteSize text = String.utf8Len text := by
  induction text with
  | nil => rfl
  | cons c rest ih => rw [byteSize, String.utf8Len_cons, ih, Nat.add_comm]

@[simp] theorem byteSize_nil : byteSize [] = 0 := rfl

@[simp] theorem byteSize_cons (c : Char) (rest : Text) :
    byteSize (c :: rest) = c.utf8Size + byteSize rest := rfl

@[simp] theorem byteSize_append (front back : Text) :
    byteSize (front ++ back) = byteSize front + byteSize back := by
  simp only [byteSize_eq_utf8Len, String.utf8Len_append]

theorem byteSize_eq_zero {text : Text} : byteSize text = 0 ↔ text = [] := by
  rw [byteSize_eq_utf8Len, String.utf8Len_eq_zero]

theorem splitAt?_sound {text front back : Text} {offset : Nat}
    (cut : text.splitAt? offset = some (front, back)) :
    text = front ++ back ∧ byteSize front = offset := by
  fun_induction splitAt? text offset generalizing front back with
  | case1 text => simp_all
  | case2 => simp at cut
  | case3 c rest offset fits ih =>
      obtain ⟨⟨inner, tail⟩, found, same⟩ := Option.map_eq_some_iff.1 cut
      obtain ⟨whole, size⟩ := ih found
      simp only [Prod.mk.injEq] at same
      obtain ⟨rfl, rfl⟩ := same
      simp only [whole, List.cons_append, byteSize_cons, size, true_and]
      omega
  | case4 => simp at cut

theorem splitAt?_byteSize (front back : Text) :
    splitAt? (front ++ back) (byteSize front) = some (front, back) := by
  induction front with
  | nil => cases back <;> rfl
  | cons c rest ih =>
      have positive := c.utf8Size_pos
      obtain ⟨offset, size⟩ : ∃ offset, byteSize (c :: rest) = offset + 1 :=
        ⟨byteSize (c :: rest) - 1, by simp; omega⟩
      have inner : offset + 1 - c.utf8Size = byteSize rest := by
        rw [← size, byteSize_cons]
        omega
      have fits : c.utf8Size ≤ offset + 1 := by
        rw [← size, byteSize_cons]
        omega
      rw [size, List.cons_append, splitAt?, if_pos fits, inner, ih]
      rfl

/-- The cuts of a text are its divisions into a front and a back. -/
theorem splitAt?_eq_some_iff {text front back : Text} {offset : Nat} :
    text.splitAt? offset = some (front, back) ↔
      text = front ++ back ∧ byteSize front = offset :=
  ⟨splitAt?_sound, fun ⟨whole, size⟩ => by rw [whole, ← size, splitAt?_byteSize]⟩

end Text

namespace Span

theorem read?_eq_some_iff {span : Span} {text value : Text} :
    span.read? text = some value ↔
      ∃ front back, text = front ++ value ++ back ∧
        front.byteSize = span.start ∧ (front ++ value).byteSize = span.stop := by
  constructor
  · intro found
    simp only [read?] at found
    split at found
    · next ordered =>
      simp only [Option.bind_eq_bind, Option.bind_eq_some_iff] at found
      obtain ⟨⟨front, rest⟩, first, ⟨middle, back⟩, second, same⟩ := found
      obtain ⟨whole, frontSize⟩ := Text.splitAt?_eq_some_iff.1 first
      obtain ⟨tail, middleSize⟩ := Text.splitAt?_eq_some_iff.1 second
      change rest = middle ++ back at tail
      obtain rfl : middle = value := by simpa using same
      refine ⟨front, back, by simp [whole, tail], frontSize, ?_⟩
      rw [Text.byteSize_append, frontSize, middleSize]
      omega
    · simp at found
  · rintro ⟨front, back, rfl, frontSize, wholeSize⟩
    rw [Text.byteSize_append] at wholeSize
    have middleSize : span.stop - span.start = value.byteSize := by omega
    have first := Text.splitAt?_byteSize front (value ++ back)
    rw [frontSize, ← List.append_assoc] at first
    simp only [read?, if_pos (show span.start ≤ span.stop by omega), middleSize, first,
      Text.splitAt?_byteSize, Option.bind_eq_bind, Option.bind_some]
    rfl

end Span

end PathPattern
