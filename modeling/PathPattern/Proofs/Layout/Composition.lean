import PathPattern.Proofs.Pattern.Compiling
import PathPattern.Proofs.Text.Overlap

namespace PathPattern

namespace Kinds

theorem union_assoc (first second third : Kinds) :
    (first.union second).union third = first.union (second.union third) := by
  simp only [union, Bool.or_assoc]

theorem empty_union (kinds : Kinds) : union {} kinds = kinds := by
  simp only [union, Bool.false_or]

theorem foldl_union (kinds : Kinds) (segments : List Segment) :
    segments.foldl (fun kinds (segment : Segment) => kinds.union segment.kind) kinds =
      kinds.union (ofSegments segments) := by
  induction segments generalizing kinds with
  | nil => simp [ofSegments, union]
  | cons segment rest ih =>
      have start : ofSegments (segment :: rest) =
          (union {} segment.kind).union (ofSegments rest) := ih _
      rw [List.foldl_cons, ih, start, empty_union, union_assoc]

theorem ofSegments_cons (segment : Segment) (rest : List Segment) :
    ofSegments (segment :: rest) = segment.kind.union (ofSegments rest) := by
  have start : ofSegments (segment :: rest) =
      (union {} segment.kind).union (ofSegments rest) := foldl_union (union {} segment.kind) rest
  rw [start, empty_union]

theorem ofSegments_append (front back : List Segment) :
    ofSegments (front ++ back) = (ofSegments front).union (ofSegments back) := by
  rw [ofSegments, List.foldl_append, foldl_union]
  rfl

end Kinds

namespace Layout

variable {settings : Settings} {first second : Text} {left right : Layout}
  {readings : List Reading} {pieces : List Text}

/-- The layout of the readings of one layout and then of another. -/
def append (left right : Layout) : Layout where
  readings := left.readings ++ right.readings
  mustAgree := left.mustAgree

theorem segmentsFrom_append (mustAgree : Bool) (taken : Nat) (front back : List Reading) :
    segmentsFrom mustAgree taken (front ++ back) =
      segmentsFrom mustAgree taken front ++
        segmentsFrom mustAgree (takenAfter taken front) back := by
  induction front generalizing taken with
  | nil => rfl
  | cons reading rest ih => exact congrArg _ (ih _)

theorem segments_append (left right : Layout) :
    (left.append right).segments =
      left.segments ++ segmentsFrom left.mustAgree left.numbered right.readings :=
  segmentsFrom_append _ _ _ _

theorem numbered_append (left right : Layout) :
    (left.append right).numbered = left.numbered + right.numbered := by
  simp only [numbered_eq, append, List.countP_append]

/-- Which kinds there are does not depend on where the count starts. -/
theorem kinds_segmentsFrom (mustAgree other : Bool) (taken count : Nat)
    (readings : List Reading) :
    Kinds.ofSegments (segmentsFrom mustAgree taken readings) =
      Kinds.ofSegments (segmentsFrom other count readings) := by
  induction readings generalizing taken count with
  | nil => rfl
  | cons reading rest ih =>
      have own : (Segment.ofReading mustAgree taken reading).kind =
          (Segment.ofReading other count reading).kind := by cases reading <;> rfl
      simp only [segmentsFrom, Kinds.ofSegments_cons, own,
        ih (taken + reading.numbers) (count + reading.numbers)]

theorem kinds_append (left right : Layout) :
    (left.append right).kinds = left.kinds.union right.kinds := by
  rw [kinds, segments_append, Kinds.ofSegments_append,
    kinds_segmentsFrom left.mustAgree right.mustAgree left.numbered 0]
  rfl

/-- Pieces that can all be read are answered with the segments of their readings. -/
theorem map_fst_ofEach {taken : Nat}
    (read : pieces.mapM (Reading.ofPiece settings) = .ok readings) :
    (Segment.ofEach settings taken pieces).map Prod.fst =
      (segmentsFrom settings.agreement taken readings).map .ok := by
  have same := map_ofPiece_of_mapM read
  clear read
  induction pieces generalizing taken readings with
  | nil =>
      obtain rfl : readings = [] := by simpa using same.symm
      rfl
  | cons piece pieces ih =>
      cases readings with
      | nil => simp at same
      | cons reading readings =>
          obtain ⟨here, behind⟩ := List.cons.inj same
          simp only [Segment.ofEach, Segment.ofPiece, here, Except.map, List.map_cons,
            segmentsFrom, ih behind]

theorem parse_append (separated : settings.separator ≠ [])
    (borderless : Text.Borderless settings.separator) (first second : Text) :
    parse settings (first ++ settings.separator ++ second) =
      (parse settings first).bind fun left => (parse settings second).map left.append := by
  rw [parse, parse, parse, Text.pieces_append_separator separated borderless, List.mapM_append]
  cases (first.pieces settings.separator).mapM (Reading.ofPiece settings) with
  | error fault => rfl
  | ok front =>
      cases (second.pieces settings.separator).mapM (Reading.ofPiece settings) with
      | error fault => rfl
      | ok back => rfl

/-- Reading two texts with a separator between them: the left fault comes first, then the
right one.  If there is none, the right pieces go on with the count of the left text, and
kinds and counts come together.  So any pieces without a separator become one segment each,
in their order. -/
theorem parse_append_separator (settings : Settings) (separated : settings.separator ≠ [])
    (borderless : Text.Borderless settings.separator) :
    let separator := settings.separator
    (∀ first second : Text,
      (∀ fault, parse settings first = .error fault →
        parse settings (first ++ separator ++ second) = .error fault) ∧
      ∀ left, parse settings first = .ok left →
        (∀ fault, parse settings second = .error fault →
          parse settings (first ++ separator ++ second) = .error fault) ∧
        ∀ right, parse settings second = .ok right →
          ∃ whole behind, parse settings (first ++ separator ++ second) = .ok whole ∧
            (Segment.ofEach settings left.numbered (second.pieces separator)).map Prod.fst =
              behind.map .ok ∧
            whole.segments = left.segments ++ behind ∧
            whole.kinds = left.kinds.union right.kinds ∧
            whole.numbered = left.numbered + right.numbered) ∧
    ∀ pieces : List Text, pieces ≠ [] → (∀ piece ∈ pieces, ¬ separator <:+: piece) →
      ((∃ layout, parse settings (separator.intercalate pieces) = .ok layout) ↔
        ∀ piece ∈ pieces, ∃ read, Segment.ofPiece settings 0 piece = .ok read) ∧
      ∀ layout, parse settings (separator.intercalate pieces) = .ok layout →
        layout.segments.length = pieces.length ∧
        ∀ place piece, pieces[place]? = some piece →
          ∃ segment, layout.segments[place]? = some segment ∧
            Segment.ofPiece settings (layout.takenBefore place) piece =
              .ok (segment, layout.takenBefore (place + 1)) := by
  intro separator
  refine ⟨?_, ?_⟩
  · intro first second
    have together := parse_append separated borderless first second
    refine ⟨fun fault refused => by rw [together, refused]; rfl, ?_⟩
    intro left accepted
    rw [together, accepted]
    refine ⟨fun fault refused => by rw [refused]; rfl, ?_⟩
    intro right acceptedRight
    obtain ⟨read, _⟩ := parse_eq_ok_iff.1 acceptedRight
    refine ⟨left.append right, segmentsFrom settings.agreement left.numbered right.readings,
      by rw [acceptedRight]; rfl, map_fst_ofEach read, ?_, kinds_append left right,
      numbered_append left right⟩
    rw [segments_append, mustAgree_of_parse accepted]
  · intro pieces nonempty absent
    have cut : Text.pieces (separator.intercalate pieces) separator = pieces :=
      Text.pieces_intercalate separated (borderless.separable separated nonempty absent)
    refine ⟨?_, ?_⟩
    · rw [exists_parse_iff 0, show settings.separator = separator from rfl, cut]
    · intro layout parsed
      refine ⟨?_, ?_⟩
      · rw [length_segments_of_parse parsed, cut]
      · intro place piece here
        exact ofPiece_of_parse parsed (by rw [cut]; exact here)

/-- The first text ends and the second one starts with a part of the separator, and the
separator between them stands all the same.  The last piece of the first text is refused
before anything in the second one. -/
theorem parse_append_separator_arrow :
    let arrow : Settings := { separator := "=>".toList }
    let left : Layout := ⟨[.wildcard, .literal "a=".toList], false⟩
    let right : Layout := ⟨[.literal ">".toList, .wildcard, .parameter "id".toList], false⟩
    let ambiguous : PieceError := .ambiguous ":a:b".toList "a:b".toList
    arrow.separator ≠ [] ∧ Text.Borderless arrow.separator ∧
      parse arrow "*=>:".toList = .error (.nameless ":".toList) ∧
      parse arrow "*=>:=>:a:b".toList = .error (.nameless ":".toList) ∧
      parse arrow "*=>a=".toList = .ok left ∧
      parse arrow ":a:b".toList = .error ambiguous ∧
      parse arrow "*=>a==>:a:b".toList = .error ambiguous ∧
      parse arrow ">=>*=>:id".toList = .ok right ∧
      (∃ whole, parse arrow "*=>a==>>=>*=>:id".toList = .ok whole ∧
        whole.segments.length = 5 ∧ whole.numbered = 2) ∧
      (∀ piece ∈ ["a=".toList, ">".toList, "=".toList], ¬ arrow.separator <:+: piece) ∧
      ∃ layout, parse arrow "a==>>=>=".toList = .ok layout ∧ layout.segments.length = 3 := by
  intro arrow left right ambiguous
  have separated : arrow.separator ≠ [] := by decide
  have borderless : Text.Borderless arrow.separator := by decide
  have nameless : parse arrow "*=>:".toList = .error (.nameless ":".toList) := rfl
  have accepted : parse arrow "*=>a=".toList = .ok left := rfl
  have refused : parse arrow ":a:b".toList = .error ambiguous := rfl
  have acceptedRight : parse arrow ">=>*=>:id".toList = .ok right := rfl
  have absent : ∀ piece ∈ ["a=".toList, ">".toList, "=".toList],
      ¬ arrow.separator <:+: piece := by decide
  have read : ∀ piece ∈ ["a=".toList, ">".toList, "=".toList],
      ∃ read, Segment.ofPiece arrow 0 piece = .ok read :=
    List.forall_mem_cons.2 ⟨⟨_, rfl⟩,
      List.forall_mem_cons.2 ⟨⟨_, rfl⟩, List.forall_mem_singleton.2 ⟨_, rfl⟩⟩⟩
  obtain ⟨twoTexts, anyPieces⟩ := parse_append_separator arrow separated borderless
  obtain ⟨first, _⟩ := twoTexts "*=>:".toList ":a:b".toList
  obtain ⟨second, _⟩ := (twoTexts "*=>a=".toList ":a:b".toList).2 left accepted
  obtain ⟨_, together⟩ := (twoTexts "*=>a=".toList ">=>*=>:id".toList).2 left accepted
  obtain ⟨whole, behind, parsed, answers, segments, _, numbered⟩ := together right acceptedRight
  obtain ⟨readable, eachOne⟩ := anyPieces _ (by decide) absent
  obtain ⟨layout, joined⟩ := readable.2 read
  refine ⟨separated, borderless, nameless, first _ nameless, accepted, refused,
    second _ refused, acceptedRight, ⟨whole, parsed, ?_, numbered⟩, absent, layout, joined,
    (eachOne layout joined).1⟩
  have count := congrArg List.length answers
  rw [List.length_map, List.length_map] at count
  rw [segments, List.length_append, ← count]
  rfl

end Layout

end PathPattern
