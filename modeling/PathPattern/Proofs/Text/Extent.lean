import PathPattern.Proofs.Text.Joining
import PathPattern.Proofs.Text.Offsets
import PathPattern.Search.Boundary

namespace PathPattern.Text

/-! # Where the pieces of a text lie

Pieces that are each followed by a separator have an extent in bytes.  The extent of
the pieces before a place is the byte offset of that place, so what a search finds by
offsets can be said of the pieces alone: the first boundary from there ends the
piece at hand, and a span over a block of pieces reads the block.
-/

variable {separator text piece : Text} {before block after : List Text}

/-- The bytes of pieces that are each followed by a separator. -/
def extent (separator : Text) : List Text → Nat
  | [] => 0
  | piece :: rest => byteSize piece + byteSize separator + extent separator rest

@[simp] theorem extent_nil (separator : Text) : extent separator [] = 0 := rfl

@[simp] theorem extent_cons (separator piece : Text) (rest : List Text) :
    extent separator (piece :: rest) =
      byteSize piece + byteSize separator + extent separator rest := rfl

@[simp] theorem extent_append (separator : Text) (front back : List Text) :
    extent separator (front ++ back) = extent separator front + extent separator back := by
  induction front with
  | nil => simp
  | cons piece rest ih => simp only [List.cons_append, extent_cons, ih, Nat.add_assoc]

/-- Of two beginnings of the same pieces, the longer one extends further. -/
theorem extent_lt_extent {longer rest : List Text} (separated : separator ≠ [])
    (same : before ++ after = longer ++ rest) (shorter : before.length < longer.length) :
    extent separator before < extent separator longer := by
  obtain ⟨middle, rfl⟩ := List.prefix_of_prefix_length_le ⟨after, same⟩ ⟨rest, rfl⟩
    (Nat.le_of_lt shorter)
  cases middle with
  | nil => simp at shorter
  | cons piece middle =>
      have positive : byteSize separator ≠ 0 := fun none => separated (byteSize_eq_zero.1 none)
      rw [extent_append, extent_cons]
      omega

theorem intercalate_append (separator : Text) (nonempty : block ≠ []) (more : after ≠ []) :
    separator.intercalate (block ++ after) =
      separator.intercalate block ++ separator ++ separator.intercalate after := by
  induction block with
  | nil => exact absurd rfl nonempty
  | cons piece rest ih =>
      cases rest with
      | nil => simp [List.intercalate_cons_of_ne_nil more]
      | cons next rest =>
          rw [List.cons_append, List.intercalate_cons_of_ne_nil (by simp),
            ih (by simp), List.intercalate_cons_cons]
          simp

theorem byteSize_intercalate (separator : Text) (nonempty : block ≠ []) :
    byteSize (separator.intercalate block) + byteSize separator = extent separator block := by
  induction block with
  | nil => exact absurd rfl nonempty
  | cons piece rest ih =>
      cases rest with
      | nil => simp
      | cons next rest =>
          have inner := ih (by simp)
          rw [List.intercalate_cons_cons, extent_cons, ← inner]
          simp only [byteSize_append]
          omega

theorem extent_concat (separator : Text) (block : List Text) (piece : Text) :
    extent separator (block ++ [piece]) =
      extent separator block + byteSize piece + byteSize separator := by
  rw [extent_append, extent_cons, extent_nil, Nat.add_zero, Nat.add_assoc]

theorem byteSize_intercalate_append (separator : Text) (front : List Text) (more : after ≠ []) :
    byteSize (separator.intercalate (front ++ after)) =
      extent separator front + byteSize (separator.intercalate after) := by
  have size := byteSize_intercalate separator (List.append_ne_nil_of_right_ne_nil front more)
  rw [extent_append, ← byteSize_intercalate separator more, ← Nat.add_assoc] at size
  exact Nat.add_right_cancel size

theorem byteSize_intercalate_concat (separator : Text) (block : List Text) (piece : Text) :
    byteSize (separator.intercalate (block ++ [piece])) =
      extent separator block + byteSize piece := by
  rw [byteSize_intercalate_append separator block (by simp), List.intercalate_singleton]

theorem byteSize_of_pieces (nonempty : block ≠ [])
    (whole : text.pieces separator = before ++ block) :
    byteSize text = extent separator before + byteSize (separator.intercalate block) := by
  rw [← byteSize_intercalate_append separator before nonempty, ← whole, intercalate_pieces]

/-- A text can be cut in front of any of its pieces. -/
theorem exists_cut_of_pieces (separated : separator ≠ []) (more : after ≠ [])
    (whole : text.pieces separator = before ++ after) :
    ∃ front rest, text = front ++ rest ∧ byteSize front = extent separator before ∧
      rest.pieces separator = after := by
  obtain ⟨front, divided, replaced⟩ := exists_front_of_pieces separated more whole
  refine ⟨front, separator.intercalate after, divided, ?_, ?_⟩
  · have size := byteSize_of_pieces more whole
    rw [divided, byteSize_append] at size
    exact Nat.add_right_cancel size
  · rw [divided, replaced] at whole
    exact List.append_cancel_left whole

theorem find?_boundary (separated : separator ≠ [])
    (whole : text.pieces separator = before ++ piece :: after) :
    Boundary.find? text separator (extent separator before) =
      some ⟨extent separator before + byteSize piece, after.isEmpty⟩ := by
  obtain ⟨front, rest, rfl, size, left⟩ := exists_cut_of_pieces separated (by simp) whole
  simp only [Boundary.find?, ← size, splitAt?_byteSize, Option.map_some]
  cases found : rest.breakAt? separator with
  | none =>
      rw [pieces_of_breakAt?_eq_none separated found] at left
      simp only [List.cons.injEq] at left
      obtain ⟨rfl, rfl⟩ := left
      simp
  | some cut =>
      rw [pieces_of_breakAt?_eq_some separated found] at left
      simp only [List.cons.injEq] at left
      obtain ⟨rfl, rfl⟩ := left
      simp [pieces_ne_nil]

/-- From behind a block of pieces on, the first boundary ends the block with one piece more. -/
theorem find?_boundary_concat (separated : separator ≠ [])
    (whole : text.pieces separator = before ++ (block ++ piece :: after)) :
    Boundary.find? text separator (extent separator before + extent separator block) =
      some ⟨extent separator before + byteSize (separator.intercalate (block ++ [piece])),
        after.isEmpty⟩ := by
  rw [byteSize_intercalate_concat, ← Nat.add_assoc, ← extent_append]
  exact find?_boundary separated (whole.trans (List.append_assoc _ _ _).symm)

/-- The span from where a block of pieces starts reads the pieces, joined again. -/
theorem read?_block (separated : separator ≠ []) (nonempty : block ≠ [])
    (whole : text.pieces separator = before ++ block ++ after) :
    Span.read? ⟨extent separator before,
      extent separator before + byteSize (separator.intercalate block)⟩ text =
        some (separator.intercalate block) := by
  obtain ⟨front, rest, rfl, size, left⟩ := exists_cut_of_pieces separated (by simp [nonempty])
    (whole.trans (List.append_assoc before block after))
  have joined : rest = separator.intercalate (block ++ after) := by
    rw [← left, intercalate_pieces]
  obtain ⟨back, divided⟩ : ∃ back, rest = separator.intercalate block ++ back := by
    by_cases more : after = []
    · exact ⟨[], by simp [joined, more]⟩
    · exact ⟨separator ++ separator.intercalate after, by
        rw [joined, intercalate_append separator nonempty more, List.append_assoc]⟩
  exact Span.read?_eq_some_iff.2 ⟨front, back, by simp [divided], size, by simp [size]⟩

end PathPattern.Text
