import PathPattern.Proofs.Text.Offsets
import PathPattern.Proofs.Text.Pieces

namespace PathPattern.Text

/-! # The bytes of a text

The UTF-8 form of a text is a list of bytes.  The first byte of a character is the first byte
of none that a character has further on, so among the bytes of a text another text stands only
from one character boundary to another.  A search for a mark by characters therefore ends at
the place where a search by bytes would end.
-/

variable {text mark front back rest : Text} {offset place : Nat}

def bytes (text : Text) : List UInt8 := text.flatMap String.utf8EncodeChar

@[simp] theorem bytes_nil : bytes [] = [] := rfl

@[simp] theorem bytes_cons (c : Char) (rest : Text) :
    bytes (c :: rest) = String.utf8EncodeChar c ++ bytes rest := rfl

@[simp] theorem bytes_append (front back : Text) :
    bytes (front ++ back) = bytes front ++ bytes back := List.flatMap_append

@[simp] theorem length_bytes (text : Text) : (bytes text).length = byteSize text := by
  induction text with
  | nil => rfl
  | cons c rest ih => simp [ih]

theorem eq_of_encoded_append {c d : Char} {first second : List UInt8}
    (same : String.utf8EncodeChar c ++ first = String.utf8EncodeChar d ++ second) : c = d := by
  have decoded := congrArg (fun bytes => bytes.toByteArray.utf8DecodeChar? 0) same
  simpa only [List.toByteArray_append, ByteArray.utf8DecodeChar?_utf8EncodeChar_append,
    Option.some.injEq] using decoded

/-- Texts begin alike if their bytes do. -/
theorem bytes_prefix_iff : bytes mark <+: bytes text ↔ mark <+: text := by
  constructor
  · intro ⟨more, begins⟩
    induction mark generalizing text with
    | nil => exact List.nil_prefix
    | cons c mark ih =>
        cases text with
        | nil => simp at begins
        | cons d text =>
            rw [bytes_cons, bytes_cons, List.append_assoc] at begins
            obtain rfl := eq_of_encoded_append begins
            exact (List.cons_prefix_cons).2 ⟨rfl, ih (List.append_cancel_left begins)⟩
  · rintro ⟨more, rfl⟩
    exact ⟨bytes more, (bytes_append mark more).symm⟩

/-- The bytes of a mark stand among those of a text from an offset on. -/
def StandsAt (text mark : Text) (offset : Nat) : Prop :=
  bytes mark <+: (bytes text).drop offset

theorem standsAt_zero : StandsAt text mark 0 ↔ mark <+: text := bytes_prefix_iff

theorem standsAt_append :
    StandsAt (front ++ rest) mark (byteSize front + place) ↔ StandsAt rest mark place := by
  rw [StandsAt, bytes_append, ← length_bytes, List.drop_length_add_append]
  rfl

/-- No text stands inside a character. -/
theorem not_standsAt_inside {c : Char} (marked : mark ≠ []) (positive : 0 < place)
    (inside : place < c.utf8Size) : ¬ StandsAt (c :: rest) mark place := by
  obtain ⟨d, mark, rfl⟩ := List.exists_cons_of_ne_nil marked
  rintro ⟨more, stands⟩
  have within : place < (String.utf8EncodeChar c).length := by simpa using inside
  have begins : 0 < (String.utf8EncodeChar d).length := by simp [Char.utf8Size_pos]
  -- The byte at the place is the first one of `d`, and not the first one of `c`.
  have byte := congrArg (·[0]?) stands
  rw [bytes_cons, bytes_cons, List.append_assoc, List.getElem?_append_left begins,
    List.getElem?_drop, Nat.add_zero, List.getElem?_append_left within,
    List.getElem?_eq_getElem begins, List.getElem?_eq_getElem within, Option.some.injEq] at byte
  have first := UInt8.isUTF8FirstByte_getElem_zero_utf8EncodeChar (c := d)
  rw [byte, UInt8.isUTF8FirstByte_getElem_utf8EncodeChar] at first
  omega

/-- Where a mark stands among the bytes, the text can be cut in front of it and behind it. -/
theorem standsAt_iff (marked : mark ≠ []) :
    StandsAt text mark place ↔
      ∃ front back, text = front ++ mark ++ back ∧ byteSize front = place := by
  constructor
  · intro stands
    induction text generalizing place with
    | nil =>
        have short := stands.length_le
        simp only [length_bytes, bytes_nil, List.drop_nil, List.length_nil, Nat.le_zero,
          byteSize_eq_zero] at short
        exact absurd short marked
    | cons c rest ih =>
        rcases Nat.eq_zero_or_pos place with rfl | positive
        · obtain ⟨back, whole⟩ := standsAt_zero.1 stands
          exact ⟨[], back, whole.symm, rfl⟩
        · by_cases inside : place < c.utf8Size
          · exact absurd stands (not_standsAt_inside marked positive inside)
          · obtain ⟨further, rfl⟩ := Nat.exists_eq_add_of_le (Nat.le_of_not_lt inside)
            have shifted : StandsAt ([c] ++ rest) mark (byteSize [c] + further) := stands
            obtain ⟨front, back, rfl, rfl⟩ := ih (standsAt_append.1 shifted)
            exact ⟨c :: front, back, rfl, rfl⟩
  · rintro ⟨front, back, rfl, rfl⟩
    rw [List.append_assoc, ← Nat.add_zero (byteSize front), standsAt_append, standsAt_zero]
    exact List.prefix_append mark back

/-- Where the leftmost mark by characters starts, the leftmost mark by bytes does. -/
theorem standsAt_of_breakAt? (marked : mark ≠ []) (found : text.breakAt? mark = some (front, back)) :
    StandsAt text mark (byteSize front) ∧
      ∀ place, place < byteSize front → ¬ StandsAt text mark place := by
  obtain ⟨whole, leftmost⟩ := breakAt?_eq_some_iff.1 found
  refine ⟨(standsAt_iff marked).2 ⟨front, back, whole, rfl⟩, ?_⟩
  intro place earlier stands
  obtain ⟨first, behind, divided, rfl⟩ := (standsAt_iff marked).1 stands
  have begins : front <+: text := ⟨mark ++ back, by rw [whole, List.append_assoc]⟩
  have starts : first <+: text := ⟨mark ++ behind, by rw [divided, List.append_assoc]⟩
  obtain ⟨middle, rfl⟩ := List.prefix_of_prefix_length_le begins starts
    (leftmost first behind divided)
  rw [byteSize_append] at earlier
  omega

theorem not_standsAt_of_breakAt? (marked : mark ≠ []) (absent : text.breakAt? mark = none)
    (place : Nat) : ¬ StandsAt text mark place := by
  intro stands
  obtain ⟨front, back, whole, _⟩ := (standsAt_iff marked).1 stands
  exact breakAt?_eq_none_iff.1 absent ⟨front, back, whole.symm⟩

end PathPattern.Text
