import PathPattern.Proofs.Layout.Rendering

namespace PathPattern

namespace Reading

/-- Whether the key of a reading is numbered. -/
def isUnnamed : Reading → Bool
  | .literal _ | .parameter _ => false
  | .anonymous | .wildcard => true

theorem numbers_eq (reading : Reading) : reading.numbers = reading.isUnnamed.toNat := by
  cases reading <;> rfl

theorem key?_of_isUnnamed {reading : Reading} {mustAgree : Bool} {taken : Nat}
    (unnamed : reading.isUnnamed = true) :
    (Segment.ofReading mustAgree taken reading).key? = some (numberedKey taken) := by
  cases reading with
  | literal text => simp [isUnnamed] at unnamed
  | parameter name => simp [isUnnamed] at unnamed
  | anonymous => rfl
  | wildcard => rfl

/-- Whether a piece is read as a wildcard or as a parameter without a name. -/
def takesNumber (settings : Settings) (piece : Text) : Bool :=
  match ofPiece settings piece with
  | .ok reading => reading.isUnnamed
  | .error _ => false

end Reading

open Reading (isUnnamed takesNumber)

namespace Segment

variable {settings : Settings} {taken : Nat} {piece : Text} {fault : PieceError}

theorem ofEach_cons (settings : Settings) (taken : Nat) (piece : Text) (rest : List Text) :
    ofEach settings taken (piece :: rest) =
      ((ofPiece settings taken piece).map Prod.fst,
        taken + (takesNumber settings piece).toNat) ::
          ofEach settings (taken + (takesNumber settings piece).toNat) rest := by
  rw [ofEach, ofPiece, takesNumber]
  cases Reading.ofPiece settings piece with
  | error fault => rfl
  | ok reading => simp [Except.map, Reading.numbers_eq]

/-- Each piece is answered for itself, with the count that the wildcards and the
parameters without a name before it make. -/
theorem getElem?_ofEach (settings : Settings) (taken : Nat) (pieces : List Text) (place : Nat) :
    (ofEach settings taken pieces)[place]? = pieces[place]?.map fun piece =>
      ((ofPiece settings (taken + (pieces.take place).countP (takesNumber settings)) piece).map
          Prod.fst,
        taken + (pieces.take (place + 1)).countP (takesNumber settings)) := by
  induction pieces generalizing taken place with
  | nil => rfl
  | cons piece rest ih =>
      rw [ofEach_cons]
      cases place with
      | zero => cases takes : takesNumber settings piece <;> simp [takes]
      | succ place =>
          rw [List.getElem?_cons_succ, ih]
          cases takes : takesNumber settings piece <;>
            simp [List.take_succ_cons, takes, Nat.add_assoc, Nat.add_comm 1]

end Segment

namespace Layout

variable {settings : Settings} {text key : Text} {layout : Layout} {place number : Nat}

theorem takenAfter_eq (taken : Nat) (readings : List Reading) :
    takenAfter taken readings = taken + readings.countP isUnnamed := by
  induction readings generalizing taken with
  | nil => rfl
  | cons reading rest ih =>
      rw [takenAfter, ih, Reading.numbers_eq, List.countP_cons]
      cases reading.isUnnamed with
      | false => simp
      | true =>
          simp only [Bool.toNat_true, if_true]
          omega

theorem numbered_eq (layout : Layout) : layout.numbered = layout.readings.countP isUnnamed := by
  rw [numbered, takenAfter_eq, Nat.zero_add]

theorem takenBefore_eq (layout : Layout) (place : Nat) :
    layout.takenBefore place = (layout.readings.take place).countP isUnnamed := by
  rw [takenBefore, takenAfter_eq, Nat.zero_add]

/-- The count at a place tells how many pieces before it have numbered keys. -/
theorem takenBefore_of_parse (parsed : parse settings text = .ok layout) (place : Nat) :
    layout.takenBefore place =
      ((text.pieces settings.separator).take place).countP (takesNumber settings) := by
  have same := congrArg (List.countP fun read : Except PieceError Reading =>
    match read with
    | .ok reading => reading.isUnnamed
    | .error _ => false) (congrArg (List.take place) (map_ofPiece_of_parse parsed))
  rw [← List.map_take, ← List.map_take, List.countP_map, List.countP_map] at same
  rw [takenBefore_eq]
  exact same.symm

/-- The keys that are numbered, in the order of the segments. -/
def numberedKeys (layout : Layout) : List Text :=
  (layout.readings.zip layout.segments).filterMap fun (reading, segment) =>
    if reading.isUnnamed then segment.key? else none

theorem numberedKeys_segmentsFrom (mustAgree : Bool) (taken : Nat) (readings : List Reading) :
    ((readings.zip (segmentsFrom mustAgree taken readings)).filterMap fun (reading, segment) =>
        if reading.isUnnamed then segment.key? else none) =
      (List.range' taken (readings.countP isUnnamed)).map numberedKey := by
  induction readings generalizing taken with
  | nil => rfl
  | cons reading rest ih =>
      rw [segmentsFrom, List.zip_cons_cons, List.filterMap_cons, ih, Reading.numbers_eq]
      cases unnamed : reading.isUnnamed with
      | false => simp [unnamed]
      | true =>
          simp [unnamed, Reading.key?_of_isUnnamed unnamed, List.range'_succ]

theorem numberedKeys_eq (layout : Layout) :
    layout.numberedKeys = (List.range layout.numbered).map numberedKey := by
  rw [numberedKeys, segments, numberedKeys_segmentsFrom, numbered_eq, List.range_eq_range']

theorem nodup_numberedKeys (layout : Layout) : layout.numberedKeys.Nodup := by
  rw [numberedKeys_eq]
  exact List.Pairwise.map numberedKey (fun _ _ differ same => differ (numberedKey_injective same))
    List.nodup_range

/-- At a place stands a parameter whose name is written out. -/
def NamedAt (layout : Layout) (place : Nat) (name : Text) : Prop :=
  layout.readings[place]? = some (.parameter name)

/-- At a place stands a wildcard or a parameter without a name, and so many of these stand
in front of it. -/
structure UnnamedAt (layout : Layout) (place number : Nat) : Prop where
  here : ∃ reading, layout.readings[place]? = some reading ∧ reading.isUnnamed = true
  before : (layout.readings.take place).countP isUnnamed = number

theorem getElem?_segments (layout : Layout) (place : Nat) :
    layout.segments[place]? = layout.readings[place]?.map
      (.ofReading layout.mustAgree ((layout.readings.take place).countP isUnnamed)) := by
  rw [segments, getElem?_segmentsFrom, takenAfter_eq, Nat.zero_add]

/-- A key was written out as a name, or it is the number of its place. -/
theorem keyAt_segments_iff :
    Cut.keyAt layout.segments place = some key ↔
      layout.NamedAt place key ∨ ∃ number, layout.UnnamedAt place number ∧
        numberedKey number = key := by
  rw [Cut.keyAt, getElem?_segments, NamedAt]
  cases here : layout.readings[place]? with
  | none =>
      refine iff_of_false (by simp) ?_
      rintro (named | ⟨number, ⟨⟨reading, found, _⟩, _⟩, _⟩)
      · simp at named
      · simp [here] at found
  | some reading =>
      have counted (number : Nat) : layout.UnnamedAt place number ↔
          reading.isUnnamed = true ∧
            (layout.readings.take place).countP isUnnamed = number := by
        constructor
        · rintro ⟨⟨other, found, unnamed⟩, before⟩
          obtain rfl := Option.some.inj (here.symm.trans found)
          exact ⟨unnamed, before⟩
        · rintro ⟨unnamed, before⟩
          exact ⟨⟨reading, here, unnamed⟩, before⟩
      simp only [counted]
      cases reading <;> simp [Segment.ofReading, Segment.key?, isUnnamed]

theorem UnnamedAt.countP_succ (unnamed : layout.UnnamedAt place number) :
    (layout.readings.take (place + 1)).countP isUnnamed = number + 1 := by
  obtain ⟨⟨reading, here, without⟩, before⟩ := unnamed
  rw [List.take_add_one, here, List.countP_append, before]
  simp [without]

theorem UnnamedAt.lt_numbered (unnamed : layout.UnnamedAt place number) :
    number < layout.numbered := by
  have within := (List.take_sublist (place + 1) layout.readings).countP_le (p := isUnnamed)
  rw [unnamed.countP_succ, ← numbered_eq] at within
  exact within

/-- A number belongs to one place. -/
theorem UnnamedAt.place_eq {first second : Nat} (here : layout.UnnamedAt first number)
    (there : layout.UnnamedAt second number) : first = second := by
  have ordered {near far : Nat} (nearAt : layout.UnnamedAt near number)
      (farAt : layout.UnnamedAt far number) : ¬ near < far := by
    intro before
    have within := (List.take_sublist_take_left (l := layout.readings)
      (show near + 1 ≤ far from before)).countP_le (p := isUnnamed)
    rw [nearAt.countP_succ, farAt.before] at within
    exact Nat.not_succ_le_self number within
  exact Nat.le_antisymm (Nat.le_of_not_lt (ordered there here))
    (Nat.le_of_not_lt (ordered here there))

theorem exists_unnamedAt_of_wildcard (wild : layout.segments[place]? = some (.wildcard key)) :
    ∃ number, layout.UnnamedAt place number ∧ numberedKey number = key := by
  rw [getElem?_segments, Option.map_eq_some_iff] at wild
  obtain ⟨reading, here, same⟩ := wild
  obtain ⟨rfl, own⟩ := Segment.ofReading_eq_wildcard_iff.1 same
  exact ⟨_, ⟨⟨_, here, rfl⟩, rfl⟩, own⟩

theorem wildcardsDiffer (layout : Layout) : Segment.WildcardsDiffer layout.segments := by
  intro key first second here there
  obtain ⟨number, unnamed, rfl⟩ := exists_unnamedAt_of_wildcard here
  obtain ⟨other, unnamedToo, same⟩ := exists_unnamedAt_of_wildcard there
  obtain rfl := numberedKey_injective same
  exact unnamed.place_eq unnamedToo

theorem exists_countP_take {readings : List Reading} (below : number < readings.countP isUnnamed) :
    ∃ place, (∃ reading, readings[place]? = some reading ∧ reading.isUnnamed = true) ∧
      (readings.take place).countP isUnnamed = number := by
  induction readings generalizing number with
  | nil => simp at below
  | cons reading rest ih =>
      cases unnamed : reading.isUnnamed with
      | false =>
          obtain ⟨place, here, before⟩ := ih (by simpa [unnamed] using below)
          exact ⟨place + 1, here, by simpa [unnamed] using before⟩
      | true =>
          cases number with
          | zero => exact ⟨0, ⟨reading, rfl, unnamed⟩, rfl⟩
          | succ number =>
              obtain ⟨place, here, before⟩ := ih (by simpa [unnamed] using below)
              exact ⟨place + 1, here, by simpa [unnamed] using before⟩

theorem exists_unnamedAt (below : number < layout.numbered) :
    ∃ place, layout.UnnamedAt place number := by
  rw [numbered_eq] at below
  obtain ⟨place, here, before⟩ := exists_countP_take below
  exact ⟨place, here, before⟩

theorem NamedAt.not_unnamedAt {name : Text} (named : layout.NamedAt place name) :
    ¬ layout.UnnamedAt place number := by
  rintro ⟨⟨reading, here, unnamed⟩, _⟩
  obtain rfl := Option.some.inj (named.symm.trans here)
  simp [isUnnamed] at unnamed

end Layout

end PathPattern
