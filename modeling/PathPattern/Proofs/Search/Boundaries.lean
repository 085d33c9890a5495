import PathPattern.Proofs.Text.Bytes
import PathPattern.Proofs.Text.Extent

namespace PathPattern.Boundary

variable {text separator piece : Text} {before block after rest : List Text} {offset : Nat}

/-- The nearest boundary from an offset on, told by bytes: the first place at which the
separator stands, or the end of the text if there is no such place. -/
inductive Nearest (text separator : Text) (offset : Nat) : Boundary → Prop where
  | found {stop : Nat} (onward : offset ≤ stop) (stands : text.StandsAt separator stop)
      (first : ∀ place, offset ≤ place → place < stop → ¬ text.StandsAt separator place) :
      Nearest text separator offset ⟨stop, false⟩
  | missing (absent : ∀ place, offset ≤ place → ¬ text.StandsAt separator place) :
      Nearest text separator offset ⟨text.byteSize, true⟩

/-- What is read from a text when each piece ends at the boundary that is found from its start
on, and the next one starts behind the separator there. -/
inductive Reads (text separator : Text) : Nat → List Text → Prop where
  | last {start stop : Nat} {value : Text} (found : find? text separator start = some ⟨stop, true⟩)
      (read : Span.read? ⟨start, stop⟩ text = some value) : Reads text separator start [value]
  | next {start stop : Nat} {value : Text} {values : List Text}
      (found : find? text separator start = some ⟨stop, false⟩)
      (read : Span.read? ⟨start, stop⟩ text = some value)
      (behind : Reads text separator (stop + separator.byteSize) values) :
      Reads text separator start (value :: values)

/-- The boundaries that are found when a run keeps its start and reaches each time behind the
separator at which it ended before. -/
inductive Grows (text separator : Text) (start : Nat) : Nat → List Boundary → Prop where
  | last {reach stop : Nat} (found : find? text separator (start + reach) = some ⟨stop, true⟩) :
      Grows text separator start reach [⟨stop, true⟩]
  | next {reach stop : Nat} {boundaries : List Boundary}
      (found : find? text separator (start + reach) = some ⟨stop, false⟩)
      (onward : Grows text separator start (stop - start + separator.byteSize) boundaries) :
      Grows text separator start reach (⟨stop, false⟩ :: boundaries)

/-- A boundary ends the run of the first pieces from an offset on.  It is at the end of the
text just if the run is all of the pieces. -/
structure EndsRun (text separator : Text) (start : Nat) (pieces : List Text) (count : Nat)
    (boundary : Boundary) : Prop where
  read : Span.read? ⟨start, boundary.stop⟩ text =
    some (separator.intercalate (pieces.take count))
  whole : boundary.atEnd = true ↔ count = pieces.length
  ended : boundary.atEnd = true ↔ boundary.stop = text.byteSize

theorem exists_nearest {front rest : Text} (separated : separator ≠ [])
    (cut : text.splitAt? offset = some (front, rest)) :
    ∃ boundary, find? text separator offset = some boundary ∧
      Nearest text separator offset boundary := by
  obtain ⟨rfl, rfl⟩ := Text.splitAt?_sound cut
  simp only [find?, cut, Option.map_some]
  cases broken : rest.breakAt? separator with
  | none =>
      refine ⟨_, rfl, .missing fun place onward stands => ?_⟩
      obtain ⟨further, rfl⟩ := Nat.exists_eq_add_of_le onward
      exact Text.not_standsAt_of_breakAt? separated broken further (Text.standsAt_append.1 stands)
  | some parts =>
      obtain ⟨stands, first⟩ := Text.standsAt_of_breakAt? separated broken
      refine ⟨_, rfl, .found (Nat.le_add_right _ _) (Text.standsAt_append.2 stands) ?_⟩
      intro place onward earlier standsEarlier
      obtain ⟨further, rfl⟩ := Nat.exists_eq_add_of_le onward
      exact first further (by omega) (Text.standsAt_append.1 standsEarlier)

theorem reads_of_pieces (separated : separator ≠ []) (more : after ≠ [])
    (whole : text.pieces separator = before ++ after) :
    Reads text separator (Text.extent separator before) after := by
  induction after generalizing before with
  | nil => exact absurd rfl more
  | cons piece rest ih =>
      have found := Text.find?_boundary separated whole
      have grouped : text.pieces separator = before ++ [piece] ++ rest := whole.trans (by simp)
      have read := Text.read?_block separated (by simp) grouped
      rw [List.intercalate_singleton] at read
      cases rest with
      | nil => exact .last found read
      | cons next rest =>
          have behind := ih (by simp) grouped
          rw [Text.extent_concat] at behind
          exact .next found read behind

theorem Reads.unique {start : Nat} {values others : List Text}
    (reads : Reads text separator start values) (again : Reads text separator start others) :
    others = values := by
  induction reads generalizing others with
  | last found read =>
      cases again with
      | last foundToo readToo =>
          cases found.symm.trans foundToo
          cases read.symm.trans readToo
          rfl
      | next foundToo => cases found.symm.trans foundToo
  | next found read _ ih =>
      cases again with
      | last foundToo => cases found.symm.trans foundToo
      | next foundToo readToo behind =>
          cases found.symm.trans foundToo
          cases read.symm.trans readToo
          rw [ih behind]

/-- A run that has a block already and takes one more piece ends at the boundary that is
found from behind the block on. -/
theorem endsRun_of_pieces (separated : separator ≠ [])
    (whole : text.pieces separator = before ++ (block ++ piece :: rest)) :
    EndsRun text separator (Text.extent separator before) (block ++ piece :: rest)
      (block.length + 1)
      ⟨Text.extent separator before + Text.byteSize (separator.intercalate (block ++ [piece])),
        rest.isEmpty⟩ where
  read := by
    have first : (block ++ piece :: rest).take (block.length + 1) = block ++ [piece] := by
      rw [List.take_length_add_append, List.take_succ_cons, List.take_zero]
    have grouped : text.pieces separator = before ++ (block ++ [piece]) ++ rest :=
      whole.trans (by simp)
    rw [first]
    exact Text.read?_block separated (by simp) grouped
  whole := by
    rw [List.isEmpty_iff_length_eq_zero, List.length_append, List.length_cons]
    omega
  ended := by
    cases rest with
    | nil => simp [Text.byteSize_of_pieces (by simp) whole]
    | cons next rest =>
        have behind : text.pieces separator = before ++ (block ++ [piece]) ++ next :: rest :=
          whole.trans (by simp)
        have size := Text.byteSize_of_pieces (by simp) behind
        have positive : separator.byteSize ≠ 0 := mt Text.byteSize_eq_zero.1 separated
        rw [Text.extent_append, Text.extent_concat, ← Text.byteSize_intercalate_concat] at size
        simp only [List.isEmpty_cons, Bool.false_eq_true, false_iff]
        omega

theorem exists_grows (separated : separator ≠ []) (more : after ≠ [])
    (whole : text.pieces separator = before ++ (block ++ after)) :
    ∃ boundaries, Grows text separator (Text.extent separator before)
        (Text.extent separator block) boundaries ∧
      boundaries.length = after.length ∧
      ∀ place boundary, boundaries[place]? = some boundary →
        EndsRun text separator (Text.extent separator before) (block ++ after)
          (block.length + place + 1) boundary := by
  -- On the pieces that are left: each of them joins the block that the run has already.
  induction after generalizing block with
  | nil => exact absurd rfl more
  | cons piece rest ih =>
      have found := Text.find?_boundary_concat separated whole
      have own := endsRun_of_pieces separated whole
      cases rest with
      | nil =>
          refine ⟨_, .last found, rfl, ?_⟩
          intro place boundary here
          obtain ⟨rfl, rfl⟩ : place = 0 ∧ _ = boundary := by simpa [List.getElem?_cons] using here
          exact own
      | cons next rest =>
          have grouped : text.pieces separator = before ++ (block ++ [piece] ++ next :: rest) :=
            whole.trans (by simp)
          obtain ⟨boundaries, grows, size, ends⟩ := ih (by simp) grouped
          refine ⟨_ :: boundaries, .next found ?_, by rw [List.length_cons, size]; rfl, ?_⟩
          · rwa [Nat.add_sub_cancel_left, Text.byteSize_intercalate_concat, ← Text.extent_concat]
          · intro place boundary here
            cases place with
            | zero =>
                obtain rfl := Option.some.inj here
                exact own
            | succ place =>
                have later := ends place boundary (by simpa using here)
                rw [List.append_assoc, List.length_append, List.length_singleton,
                  Nat.add_assoc block.length, Nat.add_comm 1 place] at later
                exact later

theorem Grows.unique {start reach : Nat} {boundaries others : List Boundary}
    (grows : Grows text separator start reach boundaries)
    (again : Grows text separator start reach others) : others = boundaries := by
  induction grows generalizing others with
  | last found =>
      cases again with
      | last foundToo =>
          cases found.symm.trans foundToo
          rfl
      | next foundToo => cases found.symm.trans foundToo
  | next found _ ih =>
      cases again with
      | last foundToo => cases found.symm.trans foundToo
      | next foundToo onward =>
          cases found.symm.trans foundToo
          rw [ih onward]

/-- Boundaries are found where the bytes of the separator stand.  One behind the other they cut
a text into its pieces.  From the start of any piece on they end the runs of one, two, three
and more pieces, and the last one alone is at the end of the text. -/
theorem find?_along_pieces (text separator : Text) (separated : separator ≠ []) :
    (∀ offset front rest, text.splitAt? offset = some (front, rest) →
        ∃ boundary, find? text separator offset = some boundary ∧
          Nearest text separator offset boundary) ∧
      (∀ values, Reads text separator 0 values ↔ values = text.pieces separator) ∧
      ∀ before after, text.pieces separator = before ++ after → after ≠ [] →
        ∃ boundaries,
          (∀ others, Grows text separator (Text.extent separator before) 0 others ↔
            others = boundaries) ∧
          boundaries.length = after.length ∧
          ∀ place boundary, boundaries[place]? = some boundary →
            EndsRun text separator (Text.extent separator before) after (place + 1) boundary := by
  refine ⟨fun offset front rest cut => exists_nearest separated cut, ?_, ?_⟩
  · have all : text.pieces separator = [] ++ text.pieces separator := rfl
    have reads := reads_of_pieces separated (Text.pieces_ne_nil text separator) all
    exact fun values => ⟨reads.unique, fun same => same ▸ reads⟩
  · intro before after whole more
    have nothing : text.pieces separator = before ++ ([] ++ after) := whole
    obtain ⟨boundaries, grows, size, ends⟩ := exists_grows separated more nothing
    refine ⟨boundaries, fun others => ⟨grows.unique, fun same => same ▸ grows⟩, size, ?_⟩
    intro place boundary here
    simpa using ends place boundary here

/-- The separator overlaps itself behind the first piece, and the last piece is empty.  The
second one has more bytes than characters. -/
theorem find?_along_pieces_overlapping :
    let text := "a---é--".toList
    let separator := "--".toList
    separator ≠ [] ∧ Reads text separator 0 [['a'], ['-', 'é'], []] ∧
      Nearest text separator 3 ⟨6, false⟩ ∧
      Grows text separator 3 0 [⟨6, false⟩, ⟨8, true⟩] ∧
      EndsRun text separator 3 [['-', 'é'], []] 1 ⟨6, false⟩ ∧
      EndsRun text separator 3 [['-', 'é'], []] 2 ⟨8, true⟩ := by
  intro text separator
  have separated : separator ≠ [] := by decide
  obtain ⟨nearest, reads, runs⟩ := find?_along_pieces text separator separated
  obtain ⟨boundary, found, near⟩ := nearest 3 "a--".toList "-é--".toList rfl
  have computed : find? text separator 3 = some ⟨6, false⟩ := rfl
  obtain rfl := Option.some.inj (computed.symm.trans found)
  obtain ⟨boundaries, grown, _, ends⟩ := runs [['a']] [['-', 'é'], []] rfl (by simp)
  have grows : Grows text separator 3 0 [⟨6, false⟩, ⟨8, true⟩] := .next rfl (.last rfl)
  obtain rfl := (grown _).1 grows
  exact ⟨separated, (reads _).2 rfl, near, grows, ends 0 _ rfl, ends 1 _ rfl⟩

end PathPattern.Boundary
