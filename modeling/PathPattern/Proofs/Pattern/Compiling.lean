import PathPattern.Proofs.Layout.Counting

namespace PathPattern

open Reading (takesNumber)

namespace Layout

variable {settings : Settings} {text : Text} {taken : Nat} {pieces : List Text}
  {fault : PieceError}

/-- Of the pieces that cannot be read, the leftmost one has this fault. -/
def FirstFault (settings : Settings) (taken : Nat) (pieces : List Text) (fault : PieceError) :
    Prop :=
  ∃ front piece back, pieces = front ++ piece :: back ∧
    (∀ earlier ∈ front, ∃ read, Segment.ofPiece settings taken earlier = .ok read) ∧
    Segment.ofPiece settings taken piece = .error fault

theorem firstFault_nil : ¬ FirstFault settings taken [] fault := by
  rintro ⟨front, piece, back, whole, _⟩
  simp at whole

theorem firstFault_cons {piece : Text} {rest : List Text} :
    FirstFault settings taken (piece :: rest) fault ↔
      Segment.ofPiece settings taken piece = .error fault ∨
        (∃ read, Segment.ofPiece settings taken piece = .ok read) ∧
          FirstFault settings taken rest fault := by
  constructor
  · rintro ⟨front, refused, back, whole, readable, fails⟩
    cases front with
    | nil =>
        obtain ⟨rfl, rfl⟩ := List.cons.inj whole
        exact .inl fails
    | cons first front =>
        obtain ⟨rfl, rfl⟩ := List.cons.inj whole
        obtain ⟨here, later⟩ := List.forall_mem_cons.1 readable
        exact .inr ⟨here, front, refused, back, rfl, later, fails⟩
  · rintro (fails | ⟨here, front, refused, back, rfl, later, fails⟩)
    · exact ⟨[], piece, rest, rfl, by simp, fails⟩
    · exact ⟨piece :: front, refused, back, rfl, List.forall_mem_cons.2 ⟨here, later⟩, fails⟩

theorem mapM_eq_error_iff (taken : Nat) :
    pieces.mapM (Reading.ofPiece settings) = .error fault ↔
      FirstFault settings taken pieces fault := by
  induction pieces with
  | nil => simp [firstFault_nil, pure, Except.pure]
  | cons piece rest ih =>
      rw [firstFault_cons, ← ih, List.mapM_cons, Segment.ofPiece]
      cases Reading.ofPiece settings piece with
      | error other => simp [bind, Except.bind, Except.map]
      | ok reading =>
          cases rest.mapM (Reading.ofPiece settings) with
          | error other => simp [bind, Except.bind, Except.map]
          | ok readings => simp [bind, Except.bind, pure, Except.pure, Except.map]

/-- A text is refused for the leftmost of its pieces that cannot be read. -/
theorem parse_eq_error_iff (taken : Nat) :
    parse settings text = .error fault ↔
      FirstFault settings taken (text.pieces settings.separator) fault := by
  rw [← mapM_eq_error_iff, parse]
  cases (text.pieces settings.separator).mapM (Reading.ofPiece settings) with
  | error other => simp [Except.map]
  | ok readings => simp [Except.map]

theorem exists_firstFault {piece : Text} (member : piece ∈ pieces)
    (fails : Segment.ofPiece settings taken piece = .error fault) :
    ∃ reason, FirstFault settings taken pieces reason := by
  induction pieces with
  | nil => simp at member
  | cons first rest ih =>
      cases read : Segment.ofPiece settings taken first with
      | error reason => exact ⟨reason, firstFault_cons.2 (.inl read)⟩
      | ok segment =>
          rcases List.mem_cons.1 member with rfl | later
          · rw [read] at fails
            cases fails
          · obtain ⟨reason, behind⟩ := ih later
            exact ⟨reason, firstFault_cons.2 (.inr ⟨⟨_, read⟩, behind⟩)⟩

/-- A text can be read if all its pieces can. -/
theorem exists_parse_iff (taken : Nat) :
    (∃ layout, parse settings text = .ok layout) ↔
      ∀ piece ∈ text.pieces settings.separator,
        ∃ read, Segment.ofPiece settings taken piece = .ok read := by
  constructor
  · rintro ⟨layout, parsed⟩ piece member
    cases read : Segment.ofPiece settings taken piece with
    | ok segment => exact ⟨segment, rfl⟩
    | error fault =>
        obtain ⟨reason, first⟩ := exists_firstFault member read
        rw [(parse_eq_error_iff taken).2 first] at parsed
        cases parsed
  · intro readable
    cases parsed : parse settings text with
    | ok layout => exact ⟨layout, rfl⟩
    | error fault =>
        obtain ⟨front, piece, back, whole, _, fails⟩ := (parse_eq_error_iff taken).1 parsed
        obtain ⟨read, here⟩ := readable piece (by simp [whole])
        rw [fails] at here
        cases here

end Layout

namespace Pattern

variable {settings : Settings} {text : Text} {pattern : Pattern}

theorem of_compile (compiled : compile settings text = .ok pattern) :
    pattern.text = text ∧ pattern.settings = settings := by
  unfold compile at compiled
  split at compiled
  · cases compiled
  · split at compiled
    · cases compiled
    · obtain rfl := Except.ok.inj compiled
      exact ⟨rfl, rfl⟩

theorem compile_eq_error_iff {fault : CompileError} :
    compile settings text = .error fault ↔
      (∃ reason, settings.fault? = some reason ∧ fault = .settings reason) ∨
        settings.fault? = none ∧
          ∃ reason, Layout.parse settings text = .error reason ∧ fault = .piece reason := by
  unfold compile
  split
  · next reason found => simp [found, eq_comm]
  · next found =>
    split
    · next reason refused => simp [found, refused, eq_comm]
    · next layout parsed => simp [found, parsed]

theorem exists_compile_iff (accepted : settings.fault? = none) :
    (∃ pattern, compile settings text = .ok pattern) ↔
      ∃ layout, Layout.parse settings text = .ok layout := by
  constructor
  · rintro ⟨pattern, compiled⟩
    obtain ⟨rfl, rfl⟩ := of_compile compiled
    exact ⟨pattern.layout, pattern.parsed⟩
  · rintro ⟨layout, parsed⟩
    cases compiled : compile settings text with
    | ok pattern => exact ⟨pattern, rfl⟩
    | error fault =>
        rcases compile_eq_error_iff.1 compiled with ⟨reason, refused, _⟩ | ⟨_, reason, fails, _⟩
        · rw [accepted] at refused
          cases refused
        · rw [parsed] at fails
          cases fails

/-- Settings that are refused are refused whatever the text is.  If they are accepted, a
text is refused for the leftmost of its pieces that cannot be read, and compiles if there is
none.  Which pieces these are does not depend on the count, and reading one of them does not
change it.  In a pattern each piece is read with the count of the wildcards and parameters
without a name before it, so their keys are numbered from zero without a gap. -/
theorem compile_in_order (settings : Settings) (text : Text) :
    let pieces := text.pieces settings.separator
    (∀ fault, settings.fault? = some fault → compile settings text = .error (.settings fault)) ∧
    (settings.fault? = none → ∀ taken,
      ((∃ pattern, compile settings text = .ok pattern) ↔
        ∀ piece ∈ pieces, ∃ read, Segment.ofPiece settings taken piece = .ok read) ∧
      ∀ fault, compile settings text = .error fault ↔
        ∃ reason, Layout.FirstFault settings taken pieces reason ∧ fault = .piece reason) ∧
    (∀ piece fault taken, Segment.ofPiece settings taken piece = .error fault →
      (∀ other, Segment.ofPiece settings other piece = .error fault) ∧
      ∀ (others : List Text) (place : Nat), others[place]? = some piece →
        (Segment.ofEach settings taken others)[place]? =
          some (.error fault, taken + (others.take place).countP (takesNumber settings))) ∧
    ∀ pattern, compile settings text = .ok pattern →
      pattern.segments.length = pieces.length ∧
      (∀ place piece, pieces[place]? = some piece →
        ∃ segment after, pattern.segments[place]? = some segment ∧
          Segment.ofPiece settings ((pieces.take place).countP (takesNumber settings)) piece =
            .ok (segment, after)) ∧
      pattern.layout.numberedKeys = (List.range pattern.numbered).map numberedKey ∧
      pattern.layout.numberedKeys.Nodup ∧
      pattern.layout.numberedKeys.length = pattern.numbered := by
  intro pieces
  refine ⟨?_, ?_, ?_, ?_⟩
  · intro fault refused
    exact compile_eq_error_iff.2 (.inl ⟨fault, refused, rfl⟩)
  · intro accepted taken
    refine ⟨(exists_compile_iff accepted).trans (Layout.exists_parse_iff taken), ?_⟩
    intro fault
    simp [compile_eq_error_iff, accepted, Layout.parse_eq_error_iff taken, pieces]
  · intro piece fault taken fails
    have unread := Segment.ofPiece_eq_error_iff.1 fails
    refine ⟨fun other => Segment.ofPiece_eq_error_iff.2 unread, ?_⟩
    intro others place here
    have nothing : takesNumber settings piece = false := by simp [takesNumber, unread]
    have refused (count : Nat) : Segment.ofPiece settings count piece = .error fault :=
      Segment.ofPiece_eq_error_iff.2 unread
    simp [Segment.getElem?_ofEach, here, refused, Except.map, List.take_add_one, nothing]
  · intro pattern compiled
    obtain ⟨rfl, rfl⟩ := of_compile compiled
    refine ⟨Layout.length_segments_of_parse pattern.parsed, ?_, pattern.layout.numberedKeys_eq,
      pattern.layout.nodup_numberedKeys, ?_⟩
    · intro place piece here
      obtain ⟨segment, found, read⟩ := Layout.ofPiece_of_parse pattern.parsed here
      rw [Layout.takenBefore_of_parse pattern.parsed] at read
      exact ⟨segment, _, found, read⟩
    · rw [pattern.layout.numberedKeys_eq, List.length_map, List.length_range]
      rfl

/-- A pattern with wildcards and a parameter without a name around one that has a name. -/
def enumerated : Pattern where
  text := "/*/<>/<name>/*".toList
  settings := { opening := ['<'], closing := ['>'] }
  layout :=
    { readings := [.literal [], .wildcard, .anonymous, .parameter "name".toList, .wildcard]
      mustAgree := false }
  accepted := by decide
  parsed := rfl

/-- Two pieces of the second text cannot be read, and the first of them is the reason. -/
theorem compile_in_order_enumerated :
    let refused : Settings := { separator := [] }
    let angled : Settings := { opening := ['<'], closing := ['>'] }
    let unopened : PieceError := .unopened "a>".toList ['<'] ['>']
    refused.fault? = some .emptySeparator ∧
      compile refused "*/a>".toList = .error (.settings .emptySeparator) ∧
      angled.fault? = none ∧ compile angled "*/a>/<b".toList = .error (.piece unopened) ∧
      Segment.ofPiece angled 4 "a>".toList = .error unopened ∧
      (Segment.ofEach angled 4 ["*".toList, "a>".toList])[1]? = some (.error unopened, 5) ∧
      compile angled "/*/<>/<name>/*".toList = .ok enumerated ∧
      enumerated.layout.numberedKeys = ["$0".toList, "$1".toList, "$2".toList] := by
  intro refused angled unopened
  have fault : refused.fault? = some .emptySeparator := rfl
  have accepted : angled.fault? = none := by decide
  have fails : Segment.ofPiece angled 4 "a>".toList = .error unopened := rfl
  have compiled : compile angled "/*/<>/<name>/*".toList = .ok enumerated := rfl
  have first : Layout.FirstFault angled 4 (Text.pieces "*/a>/<b".toList ['/']) unopened := by
    refine ⟨["*".toList], "a>".toList, ["<b".toList], by decide, ?_, fails⟩
    intro earlier member
    obtain rfl := List.mem_singleton.1 member
    exact ⟨_, rfl⟩
  obtain ⟨settingsFirst, _, _, _⟩ := compile_in_order refused "*/a>".toList
  obtain ⟨_, leftmost, unread, _⟩ := compile_in_order angled "*/a>/<b".toList
  obtain ⟨_, _, _, numbers⟩ := compile_in_order angled "/*/<>/<name>/*".toList
  exact ⟨fault, settingsFirst _ fault, accepted,
    ((leftmost accepted 4).2 _).2 ⟨unopened, first, rfl⟩, fails,
    (unread _ _ 4 fails).2 _ 1 rfl, compiled, (numbers _ compiled).2.2.1⟩

end Pattern

end PathPattern
