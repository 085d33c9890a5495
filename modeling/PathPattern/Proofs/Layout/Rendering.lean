import PathPattern.Proofs.Layout.Numbering
import PathPattern.Proofs.Text.Pieces

namespace PathPattern

/-- Just one of the opening and the closing is empty. -/
def Settings.OneSided (settings : Settings) : Prop :=
  settings.opening = [] ↔ settings.closing ≠ []

namespace Reading

variable {settings : Settings} {piece name : Text}

/-- The piece that a reading stands for. -/
def render (settings : Settings) : Reading → Text
  | .literal text => text
  | .parameter name => settings.opening ++ name ++ settings.closing
  | .anonymous => settings.opening ++ settings.closing
  | .wildcard => settings.wildcard

theorem render_of_ofName {settings : Settings} {piece name : Text} {reading : Reading}
    (accepted : ofName settings piece name = .ok reading) :
    reading.render settings = settings.opening ++ name ++ settings.closing := by
  simp only [ofName] at accepted
  split at accepted
  · next empty =>
    split at accepted
    · obtain rfl := Except.ok.inj accepted
      simp [render, List.isEmpty_iff.1 empty]
    · cases accepted
  · split at accepted
    · cases accepted
    · obtain rfl := Except.ok.inj accepted
      rfl

/-- No part of a piece is lost in reading it. -/
theorem render_of_ofPiece {settings : Settings} {piece : Text} {reading : Reading}
    (accepted : ofPiece settings piece = .ok reading) : reading.render settings = piece := by
  simp only [ofPiece] at accepted
  split at accepted
  · next same =>
    obtain rfl := Except.ok.inj accepted
    exact same.symm
  · split at accepted
    · split at accepted
      · cases accepted
      · obtain rfl := Except.ok.inj accepted
        rfl
    · next rest opened =>
      split at accepted
      · next name closed =>
        rw [render_of_ofName accepted, List.append_assoc,
          List.isSuffixOf?_eq_some_iff_append_eq.1 closed,
          List.isPrefixOf?_eq_some_iff_append_eq.1 opened]
      · split at accepted
        · obtain rfl := Except.ok.inj accepted
          rfl
        · cases accepted

theorem not_oneSided_of_ofName (read : ofName settings piece name = .ok .anonymous) :
    ¬ settings.OneSided := by
  simp only [ofName] at read
  split at read
  · split at read
    · next same =>
      cases opening : settings.opening <;> cases closing : settings.closing <;>
        simp_all [Settings.OneSided]
    · cases read
  · split at read <;> cases read

/-- A name is missing only if both tokens around it are empty or neither is. -/
theorem not_oneSided_of_anonymous (read : ofPiece settings piece = .ok .anonymous) :
    ¬ settings.OneSided := by
  simp only [ofPiece] at read
  split at read
  · cases read
  · split at read
    · split at read <;> cases read
    · split at read
      · exact not_oneSided_of_ofName read
      · split at read <;> cases read

end Reading

namespace Segment

variable {settings : Settings} {taken after : Nat} {piece key : Text} {mustAgree : Bool}
  {segment : Segment} {fault : PieceError}

/-- The piece of a segment, given whether it took a numbered key. -/
def write (settings : Settings) (numbered : Bool) : Segment → Text
  | .literal text => text
  | .parameter key _ =>
      settings.opening ++ (if numbered then [] else key) ++ settings.closing
  | .wildcard _ => settings.wildcard

theorem ofPiece_eq_ok_iff :
    ofPiece settings taken piece = .ok (segment, after) ↔
      ∃ reading, Reading.ofPiece settings piece = .ok reading ∧
        ofReading settings.agreement taken reading = segment ∧
        taken + reading.numbers = after := by
  rw [ofPiece]
  cases Reading.ofPiece settings piece with
  | error fault => simp [Except.map]
  | ok reading => simp [Except.map]

theorem ofPiece_eq_error_iff :
    ofPiece settings taken piece = .error fault ↔
      Reading.ofPiece settings piece = .error fault := by
  rw [ofPiece]
  cases Reading.ofPiece settings piece with
  | error other => simp [Except.map]
  | ok reading => simp [Except.map]

theorem write_of_ofPiece (read : ofPiece settings taken piece = .ok (segment, after)) :
    segment.write settings (taken < after) = piece := by
  obtain ⟨reading, accepted, rfl, rfl⟩ := ofPiece_eq_ok_iff.1 read
  rw [← Reading.render_of_ofPiece accepted]
  cases reading <;> simp [write, ofReading, Reading.render, Reading.numbers]

theorem eq_literal_of_ofPiece (read : ofPiece settings taken piece = .ok (segment, after))
    (keyless : segment.key? = none) : segment = .literal piece := by
  rw [← write_of_ofPiece read]
  cases segment with
  | literal text => rfl
  | parameter key mustAgree => simp [key?] at keyless
  | wildcard key => simp [key?] at keyless

theorem after_eq_of_oneSided (oneSided : settings.OneSided)
    (read : ofPiece settings taken piece = .ok (.parameter key mustAgree, after)) :
    after = taken := by
  obtain ⟨reading, accepted, parameter, rfl⟩ := ofPiece_eq_ok_iff.1 read
  rcases (ofReading_eq_parameter_iff.1 parameter).2 with rfl | ⟨rfl, _⟩
  · rfl
  · exact absurd oneSided (Reading.not_oneSided_of_anonymous accepted)

end Segment

namespace Layout

variable {settings : Settings} {text piece : Text} {layout : Layout} {mustAgree : Bool}
  {taken place : Nat} {reading : Reading} {readings : List Reading}

/-- How many numbered keys are in use in front of a place. -/
def takenBefore (layout : Layout) (place : Nat) : Nat :=
  takenAfter 0 (layout.readings.take place)

/-- The pieces of the segments, where a segment has taken a number if the count behind it
is greater than the count before it. -/
def written (settings : Settings) (layout : Layout) : List Text :=
  layout.segments.mapIdx fun place segment =>
    segment.write settings (layout.takenBefore place < layout.takenBefore (place + 1))

theorem takenAfter_append (taken : Nat) (front back : List Reading) :
    takenAfter taken (front ++ back) = takenAfter (takenAfter taken front) back := by
  induction front generalizing taken with
  | nil => rfl
  | cons reading rest ih => exact ih _

theorem takenBefore_succ (here : layout.readings[place]? = some reading) :
    layout.takenBefore (place + 1) = layout.takenBefore place + reading.numbers := by
  rw [takenBefore, List.take_add_one, here, takenAfter_append]
  rfl

theorem length_segmentsFrom (mustAgree : Bool) (taken : Nat) (readings : List Reading) :
    (segmentsFrom mustAgree taken readings).length = readings.length := by
  induction readings generalizing taken with
  | nil => rfl
  | cons reading rest ih => exact congrArg Nat.succ (ih _)

theorem map_ofPiece_of_mapM {pieces : List Text}
    (read : pieces.mapM (Reading.ofPiece settings) = .ok readings) :
    pieces.map (Reading.ofPiece settings) = readings.map .ok := by
  induction pieces generalizing readings with
  | nil =>
      obtain rfl := Except.ok.inj read
      rfl
  | cons piece pieces ih =>
      rw [List.mapM_cons] at read
      cases first : Reading.ofPiece settings piece with
      | error fault =>
          rw [first] at read
          cases read
      | ok reading =>
          cases behind : pieces.mapM (Reading.ofPiece settings) with
          | error fault =>
              rw [first, behind] at read
              cases read
          | ok rest =>
              rw [first, behind] at read
              obtain rfl := Except.ok.inj read
              simp only [List.map_cons, first, ih behind]

theorem map_ofPiece_of_parse (parsed : parse settings text = .ok layout) :
    (text.pieces settings.separator).map (Reading.ofPiece settings) =
      layout.readings.map .ok :=
  map_ofPiece_of_mapM (parse_eq_ok_iff.1 parsed).1

theorem length_segments_of_parse (parsed : parse settings text = .ok layout) :
    layout.segments.length = (text.pieces settings.separator).length := by
  have same := congrArg List.length (map_ofPiece_of_parse parsed)
  simp only [List.length_map] at same
  rw [segments, length_segmentsFrom, same]

/-- Every piece of a pattern is read as the segment at its place, with the count that the
pieces before it left. -/
theorem ofPiece_of_parse (parsed : parse settings text = .ok layout)
    (here : (text.pieces settings.separator)[place]? = some piece) :
    ∃ segment, layout.segments[place]? = some segment ∧
      Segment.ofPiece settings (layout.takenBefore place) piece =
        .ok (segment, layout.takenBefore (place + 1)) := by
  have same := congrArg (·[place]?) (map_ofPiece_of_parse parsed)
  simp only [List.getElem?_map, here, Option.map_some] at same
  obtain ⟨reading, found, accepted⟩ := Option.map_eq_some_iff.1 same.symm
  refine ⟨.ofReading layout.mustAgree (layout.takenBefore place) reading, ?_, ?_⟩
  · rw [segments, getElem?_segmentsFrom, found]
    rfl
  · rw [Segment.ofPiece_eq_ok_iff]
    refine ⟨reading, accepted.symm, ?_, (takenBefore_succ found).symm⟩
    rw [mustAgree_of_parse parsed]

theorem exists_ofPiece_of_parse {segment : Segment} (parsed : parse settings text = .ok layout)
    (here : layout.segments[place]? = some segment) :
    ∃ piece, (text.pieces settings.separator)[place]? = some piece ∧
      Segment.ofPiece settings (layout.takenBefore place) piece =
        .ok (segment, layout.takenBefore (place + 1)) := by
  have within := (List.getElem?_eq_some_iff.1 here).1
  rw [length_segments_of_parse parsed] at within
  have found := List.getElem?_eq_getElem within
  obtain ⟨other, same, read⟩ := ofPiece_of_parse parsed found
  rw [here, Option.some_inj] at same
  exact ⟨_, found, same ▸ read⟩

theorem written_of_parse (parsed : parse settings text = .ok layout) :
    layout.written settings = text.pieces settings.separator := by
  apply List.ext_getElem (by rw [written, List.length_mapIdx, length_segments_of_parse parsed])
  intro place within _
  rw [written, List.length_mapIdx] at within
  obtain ⟨piece, found, read⟩ :=
    exists_ofPiece_of_parse parsed (List.getElem?_eq_getElem within)
  simp only [written, List.getElem_mapIdx, Segment.write_of_ofPiece read]
  exact (List.getElem?_eq_some_iff.1 found).2.symm

theorem written_of_oneSided (parsed : parse settings text = .ok layout)
    (oneSided : settings.OneSided) :
    layout.written settings = layout.segments.map (Segment.write settings false) := by
  apply List.ext_getElem (by rw [written, List.length_mapIdx, List.length_map])
  intro place _ within
  rw [List.length_map] at within
  obtain ⟨piece, _, read⟩ := exists_ofPiece_of_parse parsed (List.getElem?_eq_getElem within)
  simp only [written, List.getElem_mapIdx, List.getElem_map]
  cases here : layout.segments[place] with
  | literal text => rfl
  | wildcard key => rfl
  | parameter key mustAgree =>
      rw [here] at read
      rw [Segment.after_eq_of_oneSided oneSided read]
      simp

end Layout

end PathPattern
