import PathPattern.Proofs.Text.Extent

namespace PathPattern.Text

variable {separator text : Text} {front back pieces : List Text}

/-- A text ends as the separator begins, and what that leaves of the separator begins the
separator behind the text. -/
def RunsInto (separator text : Text) : Prop :=
  ∃ front rest, separator = front ++ rest ∧ front ≠ [] ∧ rest ≠ [] ∧
    front <:+ text ∧ rest <+: separator

theorem runsInto_iff : RunsInto separator text ↔ ∃ count < separator.length, 0 < count ∧
    separator.take count <:+ text ∧ separator.drop count <+: separator := by
  constructor
  · intro ⟨front, rest, whole, someFront, someRest, ends, begins⟩
    have size := congrArg List.length whole
    have positiveFront := List.length_pos_iff.2 someFront
    have positiveRest := List.length_pos_iff.2 someRest
    rw [List.length_append] at size
    refine ⟨front.length, by omega, positiveFront, ?_, ?_⟩
    · rwa [whole, List.take_left]
    · have shorter : separator.drop front.length = rest := by rw [whole, List.drop_left]
      rwa [shorter]
  · intro ⟨count, short, positive, ends, begins⟩
    refine ⟨separator.take count, separator.drop count, (List.take_append_drop _ _).symm, ?_, ?_,
      ends, begins⟩
    · rw [← List.length_pos_iff, List.length_take]
      omega
    · rw [← List.length_pos_iff, List.length_drop]
      omega

instance decidableRunsInto (separator text : Text) : Decidable (RunsInto separator text) :=
  decidable_of_iff _ runsInto_iff.symm

/-- Nothing but the whole separator stands both at its start and at its end. -/
def Borderless (separator : Text) : Prop :=
  ∀ border, border <+: separator → border <:+ separator → border = [] ∨ border = separator

theorem borderless_iff : Borderless separator ↔
    ∀ count < separator.length, separator.take count <:+ separator → count = 0 := by
  constructor
  · intro borderless count short ends
    rcases borderless _ (List.take_prefix count separator) ends with none | all
    · have size := congrArg List.length none
      simp only [List.length_take, List.length_nil] at size
      omega
    · have size := congrArg List.length all
      simp only [List.length_take] at size
      omega
  · intro proper border begins ends
    have shape := List.prefix_iff_eq_take.1 begins
    rcases Nat.lt_or_eq_of_le begins.length_le with short | whole
    · exact .inl (List.eq_nil_of_length_eq_zero (proper _ short (shape ▸ ends)))
    · exact .inr (begins.eq_of_length whole)

instance decidableBorderless (separator : Text) : Decidable (Borderless separator) :=
  decidable_of_iff _ borderless_iff.symm

theorem Borderless.not_runsInto (borderless : Borderless separator) (text : Text) :
    ¬ RunsInto separator text := by
  intro ⟨front, rest, whole, someFront, someRest, _, begins⟩
  rcases borderless rest begins ⟨front, whole.symm⟩ with none | all
  · exact someRest none
  · rw [all] at whole
    exact someFront (List.self_eq_append_left.1 whole)

/-- If the leftmost separator starts in the text, it lies in the text or goes on behind it. -/
theorem infix_or_runsInto {first tail : Text} (earlier : first.length < text.length)
    (whole : text ++ separator = first ++ separator ++ tail) :
    separator <:+: text ∨ RunsInto separator text := by
  obtain ⟨middle, rfl⟩ := List.prefix_of_prefix_length_le ⟨separator ++ tail, by simp [whole]⟩
    ⟨separator, rfl⟩ (Nat.le_of_lt earlier)
  have shifted : middle ++ separator = separator ++ tail := by simpa using whole
  by_cases fits : separator.length ≤ middle.length
  · obtain ⟨rest, rfl⟩ := List.prefix_of_prefix_length_le ⟨tail, rfl⟩ ⟨separator, shifted⟩ fits
    exact .inl ⟨first, rest, by simp⟩
  · obtain ⟨rest, divided⟩ := List.prefix_of_prefix_length_le ⟨separator, shifted⟩ ⟨tail, rfl⟩
      (by omega)
    have begins : separator = rest ++ tail := by
      rw [← divided, List.append_assoc, List.append_cancel_left_eq, divided] at shifted
      exact shifted
    have someMiddle : middle ≠ [] := by
      intro empty
      simp [empty] at earlier
    have someRest : rest ≠ [] := by
      intro empty
      simp [← divided, empty] at fits
    exact .inr ⟨middle, rest, divided.symm, someMiddle, someRest, ⟨first, rfl⟩,
      ⟨tail, begins.symm⟩⟩

theorem Unbroken.not_runsInto (unbroken : Unbroken separator text) :
    ¬ RunsInto separator text := by
  intro ⟨front, rest, whole, someFront, _, ⟨start, divided⟩, ⟨tail, begins⟩⟩
  subst divided
  have same : start ++ front ++ separator = start ++ separator ++ tail :=
    calc
      start ++ front ++ separator = start ++ front ++ (rest ++ tail) := by rw [begins]
      _ = start ++ separator ++ tail := by rw [whole]; simp
  have near := (breakAt?_eq_some_iff.1 unbroken).2 start tail same
  have positive := List.length_pos_iff.2 someFront
  simp only [List.length_append] at near
  omega

/-- A text is cut behind its last character if no separator lies in it and none starts in it
and goes on behind it. -/
theorem unbroken_iff (separated : separator ≠ []) :
    Unbroken separator text ↔ ¬ separator <:+: text ∧ ¬ RunsInto separator text := by
  constructor
  · intro unbroken
    exact ⟨breakAt?_eq_none_iff.1 (unbroken.breakAt?_eq_none separated), unbroken.not_runsInto⟩
  · intro ⟨absent, apart⟩
    refine breakAt?_eq_some_iff.2 ⟨(List.append_nil _).symm, ?_⟩
    intro first tail whole
    refine Nat.le_of_not_lt fun earlier => ?_
    exact (infix_or_runsInto earlier whole).elim absent apart

/-- The texts that a join gives back: no separator lies in them, and those that another text
follows do not run into the separator. -/
theorem separable_iff (separated : separator ≠ []) :
    Separable separator pieces ↔ pieces ≠ [] ∧ (∀ piece ∈ pieces, ¬ separator <:+: piece) ∧
      ∀ piece ∈ pieces.dropLast, ¬ RunsInto separator piece := by
  induction pieces with
  | nil => simp [Separable]
  | cons piece rest ih =>
      cases rest with
      | nil => simp [Separable, breakAt?_eq_none_iff]
      | cons next rest =>
          have divided : (piece :: next :: rest).dropLast = piece :: (next :: rest).dropLast := rfl
          rw [separable_cons (by simp), ih, unbroken_iff separated, divided,
            List.forall_mem_cons (l := next :: rest),
            List.forall_mem_cons (l := (next :: rest).dropLast)]
          grind

theorem Borderless.separable (borderless : Borderless separator) (separated : separator ≠ [])
    (nonempty : pieces ≠ []) (absent : ∀ piece ∈ pieces, ¬ separator <:+: piece) :
    Separable separator pieces :=
  (separable_iff separated).2 ⟨nonempty, absent, fun piece _ => borderless.not_runsInto piece⟩

/-- Joined texts are cut into the same texts again just if they are separable. -/
theorem pieces_intercalate_iff (separated : separator ≠ []) :
    Text.pieces (separator.intercalate pieces) separator = pieces ↔
      Separable separator pieces := by
  refine ⟨fun same => ?_, pieces_intercalate separated⟩
  rw [← same]
  exact separable_pieces separated _

/-- A separator that stands between two texts is where the left one ends and the right one
starts. -/
theorem pieces_append_separator (separated : separator ≠ []) (borderless : Borderless separator)
    (left right : Text) :
    Text.pieces (left ++ separator ++ right) separator =
      left.pieces separator ++ right.pieces separator := by
  have joined : separator.intercalate (left.pieces separator ++ right.pieces separator) =
      left ++ separator ++ right := by
    rw [intercalate_append separator (pieces_ne_nil left separator)
      (pieces_ne_nil right separator), intercalate_pieces, intercalate_pieces]
  have absent (text : Text) : ∀ piece ∈ text.pieces separator, ¬ separator <:+: piece :=
    ((separable_iff separated).1 (separable_pieces separated text)).2.1
  rw [← joined, pieces_intercalate_iff separated]
  exact borderless.separable separated (by simp [pieces_ne_nil])
    (List.forall_mem_append.2 ⟨absent left, absent right⟩)

end PathPattern.Text
