import PathPattern.Proofs.Cut.Fitting

namespace PathPattern.Cut

open Commitment (Bound remember)

variable {separator key text : Text} {bound : Bound} {segment : Segment}
  {segments : List Segment} {block : List Text} {blocks : List (List Text)}
  {place earlier : Nat}

def keyAt (segments : List Segment) (place : Nat) : Option Text :=
  segments[place]?.bind Segment.key?

def textAt (separator : Text) (blocks : List (List Text)) (place : Nat) : Option Text :=
  blocks[place]?.map (blockText separator)

/-- The nearest place before another that has a key. -/
structure NearestBefore (segments : List Segment) (key : Text) (place earlier : Nat) : Prop where
  before : earlier < place
  here : keyAt segments earlier = some key
  none_between : ∀ between, earlier < between → between < place →
    keyAt segments between ≠ some key

/-- The last place that has a key. -/
structure LastPlace (segments : List Segment) (key : Text) (place : Nat) : Prop where
  here : keyAt segments place = some key
  none_behind : ∀ behind, place < behind → keyAt segments behind ≠ some key

@[simp] theorem keyAt_zero : keyAt (segment :: segments) 0 = segment.key? := rfl

@[simp] theorem textAt_zero :
    textAt separator (block :: blocks) 0 = some (blockText separator block) := rfl

@[simp] theorem textAt_succ :
    textAt separator (block :: blocks) (place + 1) = textAt separator blocks place := rfl

theorem length_of_dealt (dealt : Dealt segments blocks) : segments.length = blocks.length := by
  induction dealt with
  | last _ => rfl
  | cons _ _ ih => simpa using ih

/-- A parameter that must agree repeats the text bound at first, if no place before it
has its key. -/
theorem textAt_of_bound (size : segments.length = blocks.length)
    (agrees : AgreesAfter separator bound segments blocks)
    (parameter : segments[place]? = some (.parameter key true))
    (fresh : ∀ before, before < place → keyAt segments before ≠ some key)
    (found : bound.lookup key = some text) : textAt separator blocks place = some text := by
  induction segments generalizing bound blocks place with
  | nil => simp at parameter
  | cons segment rest ih =>
      cases blocks with
      | nil => simp at size
      | cons block blocks =>
          obtain ⟨repeats, agreesRest⟩ := agreesAfter_cons.1 agrees
          cases place with
          | zero =>
              obtain rfl : segment = .parameter key true := by simpa using parameter
              simp [repeats key rfl text found]
          | succ place =>
              have other : segment.key? ≠ some key := fresh 0 (by omega)
              rw [textAt_succ]
              apply ih (by simpa using size) agreesRest (by simpa using parameter)
              · intro before earlier
                exact fresh (before + 1) (by omega)
              · rw [Commitment.lookup_remember_of_ne other, found]

theorem textAt_of_agreesAfter (size : segments.length = blocks.length)
    (agrees : AgreesAfter separator bound segments blocks)
    (parameter : segments[place]? = some (.parameter key true))
    (nearest : NearestBefore segments key place earlier) :
    textAt separator blocks earlier = textAt separator blocks place := by
  obtain ⟨before, here, none_between⟩ := nearest
  induction segments generalizing bound blocks place earlier with
  | nil => simp at parameter
  | cons segment rest ih =>
      cases blocks with
      | nil => simp at size
      | cons block blocks =>
          obtain ⟨_, agreesRest⟩ := agreesAfter_cons.1 agrees
          obtain ⟨place, rfl⟩ : ∃ less, place = less + 1 := ⟨place - 1, by omega⟩
          have sizeRest : rest.length = blocks.length := by simpa using size
          have parameterRest : rest[place]? = some (.parameter key true) := by
            simpa using parameter
          cases earlier with
          | zero =>
              have own : segment.key? = some key := here
              rw [own] at agreesRest
              refine (textAt_of_bound sizeRest agreesRest parameterRest ?_
                (Commitment.lookup_remember_self _ _ _)).symm
              intro between less
              exact none_between (between + 1) (by omega) (by omega)
          | succ earlier =>
              rw [textAt_succ, textAt_succ]
              apply ih sizeRest agreesRest parameterRest (by omega) here
              intro between after less
              exact none_between (between + 1) (by omega) (by omega)

theorem entries_cons (separator : Text) (segment : Segment) (segments : List Segment)
    (block : List Text) (blocks : List (List Text)) :
    entries separator (segment :: segments) (block :: blocks) =
      (segment.key?.map fun key => (key, blockText separator block)).toList ++
        entries separator segments blocks := by
  cases segment <;> rfl

theorem exists_keyAt_of_lookup (found : (entries separator segments blocks).reverse.lookup key =
    some text) : ∃ place, keyAt segments place = some key := by
  induction segments generalizing blocks with
  | nil => simp [entries] at found
  | cons segment rest ih =>
      cases blocks with
      | nil => simp [entries] at found
      | cons block blocks =>
          rw [entries_cons, List.reverse_append, List.lookup_append, Option.or_eq_some_iff] at found
          rcases found with later | ⟨_, now⟩
          · obtain ⟨place, here⟩ := ih later
            exact ⟨place + 1, here⟩
          · refine ⟨0, ?_⟩
            cases own : segment.key? with
            | none => simp [own] at now
            | some other =>
                by_cases same : key = other
                · simp [own, same]
                · simp [own, same] at now

theorem exists_lastPlace (here : keyAt segments place = some key) :
    ∃ last, LastPlace segments key last := by
  induction segments generalizing place with
  | nil => simp [keyAt] at here
  | cons segment rest ih =>
      by_cases later : ∃ behind, keyAt rest behind = some key
      · obtain ⟨behind, found⟩ := later
        obtain ⟨last, ⟨hereLast, none_behind⟩⟩ := ih found
        refine ⟨last + 1, hereLast, ?_⟩
        intro behind after
        obtain ⟨behind, rfl⟩ : ∃ less, behind = less + 1 := ⟨behind - 1, by omega⟩
        exact none_behind behind (by omega)
      · refine ⟨0, ?_, ?_⟩
        · cases place with
          | zero => exact here
          | succ place => exact absurd ⟨place, here⟩ later
        · intro behind after found
          obtain ⟨behind, rfl⟩ : ∃ less, behind = less + 1 := ⟨behind - 1, by omega⟩
          exact later ⟨behind, found⟩

theorem lookup_of_lastPlace (last : LastPlace segments key place)
    (here : textAt separator blocks place = some text) :
    (entries separator segments blocks).reverse.lookup key = some text := by
  induction segments generalizing blocks place with
  | nil => exact absurd last.here (by simp [keyAt])
  | cons segment rest ih =>
      obtain ⟨own, none_behind⟩ := last
      cases blocks with
      | nil => simp [textAt] at here
      | cons block blocks =>
          rw [entries_cons, List.reverse_append, List.lookup_append]
          cases place with
          | zero =>
              have missing : (entries separator rest blocks).reverse.lookup key = none := by
                cases found : (entries separator rest blocks).reverse.lookup key with
                | none => rfl
                | some value =>
                    obtain ⟨behind, later⟩ := exists_keyAt_of_lookup found
                    exact absurd later (none_behind (behind + 1) (by omega))
              rw [keyAt_zero] at own
              rw [textAt_zero] at here
              simpa [missing, own] using here
          | succ place =>
              have later := ih ⟨own, fun behind after => none_behind (behind + 1) (by omega)⟩ here
              rw [later, Option.some_or]

theorem exists_textAt (size : segments.length = blocks.length)
    (here : keyAt segments place = some key) :
    ∃ text, textAt separator blocks place = some text := by
  simp only [keyAt, Option.bind_eq_some_iff] at here
  obtain ⟨segment, found, _⟩ := here
  have within : place < blocks.length := by
    rw [← size]
    exact (List.getElem?_eq_some_iff.1 found).1
  exact ⟨blockText separator blocks[place], by simp [textAt, within]⟩

/-- A cut captures for each key the text of its last place, and nothing for other keys. -/
theorem get?_captures_iff (size : segments.length = blocks.length) :
    (captures separator segments blocks).get? key = some text ↔
      ∃ place, LastPlace segments key place ∧ textAt separator blocks place = some text := by
  rw [captures, Captures.get?_ofList]
  refine ⟨?_, ?_⟩
  · intro found
    obtain ⟨place, here⟩ := exists_keyAt_of_lookup found
    obtain ⟨last, lastPlace⟩ := exists_lastPlace here
    obtain ⟨value, textHere⟩ := exists_textAt size lastPlace.here
    have same := (lookup_of_lastPlace lastPlace textHere).symm.trans found
    exact ⟨last, lastPlace, textHere.trans same⟩
  · intro found
    obtain ⟨place, lastPlace, here⟩ := found
    exact lookup_of_lastPlace lastPlace here

end PathPattern.Cut
