import PathPattern.Proofs.Layout.Composition
import PathPattern.Proofs.Settings.Acceptance

namespace PathPattern

namespace Reading

variable {settings : Settings} {reading : Reading} {name : Text}

/-- What the tokens can write: the wildcard, or a name between the opening and the closing,
if the separator does not cut it and it is read as a parameter of that name. -/
inductive Written (settings : Settings) : Reading → Prop where
  | wildcard : Written settings .wildcard
  | parameter {name : Text} (named : name ≠ [])
      (uncut : ¬ settings.separator <:+: settings.opening ++ name ++ settings.closing)
      (read : ∃ taken mustAgree after,
        Segment.ofPiece settings taken (settings.opening ++ name ++ settings.closing) =
          .ok (.parameter name mustAgree, after)) :
      Written settings (.parameter name)

/-- A segment that is what a reading says, whatever number its key has. -/
inductive Shows : Reading → Segment → Prop where
  | wildcard {key : Text} : Shows .wildcard (.wildcard key)
  | parameter {name : Text} {mustAgree : Bool} :
      Shows (.parameter name) (.parameter name mustAgree)

/-- The text of readings that are written one after the other. -/
def renderAll (settings : Settings) (readings : List Reading) : Text :=
  settings.separator.intercalate (readings.map (render settings))

theorem ofPiece_of_parameter {taken after : Nat} {mustAgree : Bool} (named : name ≠ [])
    (read : Segment.ofPiece settings taken (settings.opening ++ name ++ settings.closing) =
      .ok (.parameter name mustAgree, after)) :
    ofPiece settings (settings.opening ++ name ++ settings.closing) = .ok (.parameter name) := by
  obtain ⟨reading, accepted, parameter, _⟩ := Segment.ofPiece_eq_ok_iff.1 read
  rcases (Segment.ofReading_eq_parameter_iff.1 parameter).2 with own | ⟨anonymous, _⟩
  · rw [accepted, own]
  · have same := render_of_ofPiece accepted
    simp only [anonymous, render, List.append_assoc, List.append_cancel_left_eq,
      List.self_eq_append_left] at same
    exact absurd same named

theorem Written.ofPiece_render (written : reading.Written settings) :
    ofPiece settings (reading.render settings) = .ok reading := by
  cases written with
  | wildcard => simp only [render, ofPiece, if_true]
  | parameter named uncut read =>
      obtain ⟨taken, mustAgree, after, read⟩ := read
      exact ofPiece_of_parameter named read

theorem Written.uncut (written : reading.Written settings) (accepted : settings.Accepted) :
    ¬ settings.separator <:+: reading.render settings := by
  cases written with
  | wildcard => exact accepted.uncut .wildcard
  | parameter named uncut read => exact uncut

theorem Written.shows (written : reading.Written settings) (mustAgree : Bool) (taken : Nat) :
    reading.Shows (.ofReading mustAgree taken reading) := by
  cases written with
  | wildcard => exact .wildcard
  | parameter named uncut read => exact .parameter

/-- A piece whose segment is what a reading says is written as the reading is, or it lacks
the name and is shorter. -/
theorem Written.eq_or_byteSize_lt {piece : Text} {segment : Segment} {taken after : Nat}
    (written : reading.Written settings) (shows : reading.Shows segment)
    (read : Segment.ofPiece settings taken piece = .ok (segment, after)) :
    piece = reading.render settings ∨
      piece.byteSize < (reading.render settings).byteSize := by
  have own := Segment.write_of_ofPiece read
  cases shows with
  | wildcard => exact .inl own.symm
  | parameter =>
      cases written with
      | parameter named uncut known =>
          have positive := Nat.pos_of_ne_zero (mt Text.byteSize_eq_zero.1 named)
          by_cases numbered : taken < after
          · right
            simp only [← own, Segment.write, numbered, decide_true, if_true, render,
              Text.byteSize_append, Text.byteSize_nil]
            omega
          · left
            simp [← own, Segment.write, numbered, render]

end Reading

namespace Text

variable {shorter longer : List Text}

theorem extent_le_and_eq (separator : Text) (size : shorter.length = longer.length)
    (each : ∀ (place : Nat) piece other, shorter[place]? = some piece →
      longer[place]? = some other → piece = other ∨ byteSize piece < byteSize other) :
    extent separator shorter ≤ extent separator longer ∧
      (extent separator shorter = extent separator longer → shorter = longer) := by
  induction shorter generalizing longer with
  | nil =>
      obtain rfl : longer = [] := List.eq_nil_of_length_eq_zero size.symm
      simp
  | cons piece shorter ih =>
      cases longer with
      | nil => simp at size
      | cons other longer =>
          obtain ⟨within, unique⟩ := ih (Nat.succ.inj size) fun place => each (place + 1)
          simp only [extent_cons]
          rcases each 0 piece other rfl rfl with rfl | less
          · exact ⟨by omega, fun same => congrArg _ (unique (by omega))⟩
          · exact ⟨by omega, fun same => by omega⟩

end Text

namespace Pattern

variable {settings : Settings} {readings : List Reading} {pattern : Pattern}

/-- The segments of a pattern are what readings say, place by place. -/
structure Shown (readings : List Reading) (segments : List Segment) : Prop where
  size : segments.length = readings.length
  each : ∀ (place : Nat) reading, readings[place]? = some reading →
    ∃ segment, segments[place]? = some segment ∧ reading.Shows segment

theorem separable_of_apart (accepted : settings.Accepted) (nonempty : readings ≠ [])
    (each : ∀ reading ∈ readings, reading.Written settings)
    (apart : ∀ reading ∈ readings.dropLast,
      ¬ Text.RunsInto settings.separator (reading.render settings)) :
    Text.Separable settings.separator (readings.map (Reading.render settings)) := by
  refine (Text.separable_iff accepted.separator_ne_nil).2 ⟨by simpa using nonempty, ?_, ?_⟩
  · exact List.forall_mem_map.2 fun reading member => (each reading member).uncut accepted
  · rw [← List.map_dropLast]
    exact List.forall_mem_map.2 apart

theorem mapM_ofPiece_render (each : ∀ reading ∈ readings, reading.Written settings) :
    (readings.map (Reading.render settings)).mapM (Reading.ofPiece settings) =
      .ok readings := by
  induction readings with
  | nil => rfl
  | cons reading rest ih =>
      obtain ⟨here, behind⟩ := List.forall_mem_cons.1 each
      rw [List.map_cons, List.mapM_cons, here.ofPiece_render, ih behind]
      rfl

/-- What a pattern shows was written so that no piece runs into the separator behind it. -/
theorem separable_of_shown (each : ∀ reading ∈ readings, reading.Written settings)
    (compiled : compile settings (Reading.renderAll settings readings) = .ok pattern)
    (shown : Shown readings pattern.segments) :
    Text.Separable settings.separator (readings.map (Reading.render settings)) := by
  obtain ⟨sameText, rfl⟩ := of_compile compiled
  have separated := (Settings.fault?_eq_none_iff.1 pattern.accepted).separator_ne_nil
  have size : (pattern.text.pieces pattern.settings.separator).length =
      (readings.map (Reading.render pattern.settings)).length := by
    rw [List.length_map, ← shown.size, segments, Layout.length_segments_of_parse pattern.parsed]
  have nonempty : readings.map (Reading.render pattern.settings) ≠ [] := by
    rw [← List.length_pos_iff, ← size, List.length_pos_iff]
    exact Text.pieces_ne_nil _ _
  have joined : Text.extent pattern.settings.separator
        (pattern.text.pieces pattern.settings.separator) =
      Text.extent pattern.settings.separator
        (readings.map (Reading.render pattern.settings)) := by
    rw [← Text.byteSize_intercalate _ (Text.pieces_ne_nil _ _),
      ← Text.byteSize_intercalate _ nonempty, Text.intercalate_pieces, sameText]
    rfl
  have same := (Text.extent_le_and_eq pattern.settings.separator size ?_).2 joined
  · rw [← same]
    exact Text.separable_pieces separated _
  · intro place piece other here there
    rw [List.getElem?_map] at there
    obtain ⟨reading, found, rfl⟩ := Option.map_eq_some_iff.1 there
    obtain ⟨segment, segmentHere, shows⟩ := shown.each place reading found
    obtain ⟨own, ownHere, read⟩ := Layout.ofPiece_of_parse pattern.parsed here
    rw [show pattern.segments[place]? = some own from ownHere, Option.some_inj] at segmentHere
    subst segmentHere
    exact (each reading (List.mem_of_getElem? found)).eq_or_byteSize_lt shows read

/-- Under accepted settings, wildcards and names between the opening and the closing are
compiled to the wildcards and parameters that they stand for, if no piece but the last runs
into the separator behind it. -/
theorem compile_of_tokens (accepted : settings.fault? = none) (nonempty : readings ≠ [])
    (each : ∀ reading ∈ readings, reading.Written settings)
    (apart : ∀ reading ∈ readings.dropLast,
      ¬ Text.RunsInto settings.separator (reading.render settings)) :
    ∃ pattern, compile settings (Reading.renderAll settings readings) = .ok pattern ∧
      Shown readings pattern.segments := by
  have usable := Settings.fault?_eq_none_iff.1 accepted
  have cut : (Reading.renderAll settings readings).pieces settings.separator =
      readings.map (Reading.render settings) :=
    Text.pieces_intercalate usable.separator_ne_nil
      (separable_of_apart usable nonempty each apart)
  have parsed : Layout.parse settings (Reading.renderAll settings readings) =
      .ok { readings, mustAgree := settings.agreement } := by
    rw [Layout.parse, cut, mapM_ofPiece_render each]
    rfl
  obtain ⟨pattern, compiled⟩ := (exists_compile_iff accepted).2 ⟨_, parsed⟩
  obtain ⟨sameText, rfl⟩ := of_compile compiled
  have layout : pattern.layout = { readings, mustAgree := pattern.settings.agreement } := by
    have own := pattern.parsed
    rw [sameText, parsed] at own
    exact (Except.ok.inj own).symm
  refine ⟨pattern, compiled, ?_, ?_⟩
  · rw [segments, layout, Layout.segments, Layout.length_segmentsFrom]
  · intro place reading here
    rw [segments, layout, Layout.segments, Layout.getElem?_segmentsFrom, here]
    exact ⟨_, rfl, (each reading (List.mem_of_getElem? here)).shows _ _⟩

/-- The separator begins as it ends.  A name may end so too, as the closing stands behind it,
and the wildcard may, in the last place. -/
theorem compile_of_tokens_colons :
    let colons : Settings :=
      { separator := "::".toList, opening := ['<'], closing := ['>'], wildcard := "*:".toList }
    let readings : List Reading := [.parameter "x:".toList, .parameter "id".toList, .wildcard]
    colons.fault? = none ∧ (∀ reading ∈ readings, reading.Written colons) ∧
      (∀ reading ∈ readings.dropLast,
        ¬ Text.RunsInto colons.separator (reading.render colons)) ∧
      ∃ pattern, compile colons "<x:>::<id>::*:".toList = .ok pattern ∧
        Shown readings pattern.segments := by
  intro colons readings
  have accepted : colons.fault? = none := by decide
  have each : ∀ reading ∈ readings, reading.Written colons :=
    List.forall_mem_cons.2 ⟨.parameter (by decide) (by decide) ⟨0, false, 0, rfl⟩,
      List.forall_mem_cons.2 ⟨.parameter (by decide) (by decide) ⟨0, false, 0, rfl⟩,
        List.forall_mem_singleton.2 .wildcard⟩⟩
  have apart : ∀ reading ∈ readings.dropLast,
      ¬ Text.RunsInto colons.separator (reading.render colons) := by decide
  exact ⟨accepted, each, apart, compile_of_tokens accepted (by decide) each apart⟩

/-- Names and wildcards that run into the separator are cut early, though the settings are
accepted and each of them can be read alone. -/
theorem tokens_cut_early :
    let slashes : Settings := { separator := "//".toList }
    let names : List Reading := [.parameter "x/".toList, .parameter "y".toList]
    let colons : Settings := { separator := "::".toList, wildcard := "*:".toList }
    let wildcards : List Reading := [.wildcard, .wildcard]
    (slashes.fault? = none ∧ (∀ reading ∈ names, reading.Written slashes) ∧
      (compile slashes ":x///:y".toList).map segments =
        .ok [.parameter "x".toList false, .literal "/:y".toList] ∧
      ¬ ∃ pattern, compile slashes (Reading.renderAll slashes names) = .ok pattern ∧
        Shown names pattern.segments) ∧
    colons.fault? = none ∧ (∀ reading ∈ wildcards, reading.Written colons) ∧
      ¬ ∃ pattern, compile colons (Reading.renderAll colons wildcards) = .ok pattern ∧
        Shown wildcards pattern.segments := by
  intro slashes names colons wildcards
  have eachName : ∀ reading ∈ names, reading.Written slashes :=
    List.forall_mem_cons.2 ⟨.parameter (by decide) (by decide) ⟨0, false, 0, rfl⟩,
      List.forall_mem_singleton.2
        (.parameter (by decide) (by decide) ⟨0, false, 0, rfl⟩)⟩
  have eachWildcard : ∀ reading ∈ wildcards, reading.Written colons :=
    List.forall_mem_cons.2 ⟨.wildcard, List.forall_mem_singleton.2 .wildcard⟩
  refine ⟨⟨by decide, eachName, rfl, ?_⟩, by decide, eachWildcard, ?_⟩
  · intro ⟨pattern, compiled, shown⟩
    have separable := separable_of_shown eachName compiled shown
    exact absurd separable.1 (by decide)
  · intro ⟨pattern, compiled, shown⟩
    have separable := separable_of_shown eachWildcard compiled shown
    exact absurd separable.1 (by decide)

end Pattern

end PathPattern
