import PathPattern.Proofs.Cut.Occurrences

namespace PathPattern

namespace Segment

/-- All parameters of the segments must agree. -/
def Checked (segments : List Segment) : Prop :=
  ∀ key mustAgree, .parameter key mustAgree ∈ segments → mustAgree = true

/-- No key is carried by a wildcard and by a parameter. -/
def Apart (segments : List Segment) : Prop :=
  ∀ key mustAgree, .parameter key mustAgree ∈ segments → .wildcard key ∉ segments

/-- No two wildcards have one key. -/
def WildcardsDiffer (segments : List Segment) : Prop :=
  ∀ (key : Text) (first second : Nat), segments[first]? = some (.wildcard key) →
    segments[second]? = some (.wildcard key) → first = second

variable {segment : Segment} {segments rest : List Segment}

theorem Checked.of_suffix (checked : Checked segments) (behind : rest <:+ segments) :
    Checked rest :=
  fun key mustAgree member => checked key mustAgree (behind.mem member)

theorem Apart.of_suffix (apart : Apart segments) (behind : rest <:+ segments) : Apart rest :=
  fun key mustAgree member wild => apart key mustAgree (behind.mem member) (behind.mem wild)

end Segment

namespace Cut

open Commitment (Bound remember)

variable {separator key text : Text} {bound : Bound} {segment : Segment}
  {rest segments : List Segment} {block : List Text} {blocks : List (List Text)}

/-- All parameters with one key have the same text. -/
def Uniform (separator : Text) (segments : List Segment) (blocks : List (List Text)) : Prop :=
  ∀ key first second mustAgree alike, segments[first]? = some (.parameter key mustAgree) →
    segments[second]? = some (.parameter key alike) →
      textAt separator blocks first = textAt separator blocks second

def Bears (separator : Text) (segments : List Segment) (blocks : List (List Text))
    (key text : Text) : Prop :=
  ∀ place mustAgree, segments[place]? = some (.parameter key mustAgree) →
    textAt separator blocks place = some text

theorem bears_cons :
    Bears separator (segment :: rest) (block :: blocks) key text ↔
      (∀ mustAgree, segment = .parameter key mustAgree → blockText separator block = text) ∧
        Bears separator rest blocks key text := by
  refine ⟨?_, ?_⟩
  · intro bears
    refine ⟨?_, ?_⟩
    · intro mustAgree parameter
      simpa using bears 0 mustAgree (by simp [parameter])
    · intro place mustAgree parameter
      simpa using bears (place + 1) mustAgree (by simpa using parameter)
  · intro bears place mustAgree parameter
    cases place with
    | zero => simpa using bears.1 mustAgree (by simpa using parameter)
    | succ place => simpa using bears.2 place mustAgree (by simpa using parameter)

theorem uniform_cons :
    Uniform separator (segment :: rest) (block :: blocks) ↔
      (∀ key mustAgree, segment = .parameter key mustAgree →
        Bears separator rest blocks key (blockText separator block)) ∧
        Uniform separator rest blocks := by
  refine ⟨?_, ?_⟩
  · intro uniform
    refine ⟨?_, ?_⟩
    · intro key mustAgree parameter place alike later
      simpa using (uniform key 0 (place + 1) mustAgree alike (by simp [parameter])
        (by simpa using later)).symm
    · intro key first second mustAgree alike here there
      simpa using uniform key (first + 1) (second + 1) mustAgree alike (by simpa using here)
        (by simpa using there)
  · intro uniform key first second mustAgree alike here there
    cases first with
    | zero =>
        have bears := uniform.1 key mustAgree (by simpa using here)
        cases second with
        | zero => rfl
        | succ second => exact (bears second alike (by simpa using there)).symm
    | succ first =>
        cases second with
        | zero =>
            exact uniform.1 key alike (by simpa using there) first mustAgree (by simpa using here)
        | succ second =>
            exact uniform.2 key first second mustAgree alike (by simpa using here)
              (by simpa using there)

theorem bears_of_own (apart : Segment.Apart (segment :: rest)) (own : segment.key? = some key)
    (behind : ∀ mustAgree, segment = .parameter key mustAgree →
      Bears separator rest blocks key text) : Bears separator rest blocks key text := by
  cases segment with
  | literal literal => simp [Segment.key?] at own
  | wildcard other =>
      obtain rfl := Option.some.inj own
      intro place mustAgree parameter
      have member := List.mem_of_getElem? parameter
      exact absurd List.mem_cons_self (apart other mustAgree (List.mem_cons_of_mem _ member))
  | parameter other mustAgree =>
      obtain rfl := Option.some.inj own
      exact behind mustAgree rfl

theorem bears_remember_iff (apart : Segment.Apart (segment :: rest)) :
    (∀ key text, (remember true segment.key? (blockText separator block) bound).lookup key =
        some text → Bears separator rest blocks key text) ↔
      (∀ key text, segment.key? ≠ some key → bound.lookup key = some text →
        Bears separator rest blocks key text) ∧
        ∀ key mustAgree, segment = .parameter key mustAgree →
          Bears separator rest blocks key (blockText separator block) := by
  refine ⟨?_, ?_⟩
  · intro bears
    refine ⟨?_, ?_⟩
    · intro key text other found
      exact bears key text (by rwa [Commitment.lookup_remember_of_ne other])
    · intro key mustAgree parameter
      obtain rfl := parameter
      exact bears key _ (Commitment.lookup_remember_self _ _ _)
  · intro bears key text found
    by_cases own : segment.key? = some key
    · rw [own, Commitment.lookup_remember_self] at found
      obtain rfl := Option.some.inj found
      exact bears_of_own apart own (bears.2 key)
    · rw [Commitment.lookup_remember_of_ne own] at found
      exact bears.1 key text own found

theorem agreesAfter_iff (size : segments.length = blocks.length)
    (checked : Segment.Checked segments) (apart : Segment.Apart segments) :
    AgreesAfter separator bound segments blocks ↔
      (∀ key text, bound.lookup key = some text → Bears separator segments blocks key text) ∧
        Uniform separator segments blocks := by
  induction segments generalizing bound blocks with
  | nil => simp [AgreesAfter, Bears, Uniform]
  | cons segment rest ih =>
      cases blocks with
      | nil => simp at size
      | cons block blocks =>
          have behind : rest <:+ segment :: rest := List.suffix_cons segment rest
          rw [agreesAfter_cons, ih (by simpa using size) (checked.of_suffix behind)
            (apart.of_suffix behind), bears_remember_iff apart, uniform_cons]
          refine ⟨?_, ?_⟩
          · intro agrees
            obtain ⟨repeats, ⟨others, first⟩, uniform⟩ := agrees
            refine ⟨?_, first, uniform⟩
            intro key text found
            have here (mustAgree : Bool) (parameter : segment = .parameter key mustAgree) :
                blockText separator block = text := by
              obtain rfl := checked key mustAgree (by simp [parameter])
              exact (repeats key parameter text found).symm
            refine bears_cons.2 ⟨here, ?_⟩
            by_cases own : segment.key? = some key
            · apply bears_of_own apart own
              intro mustAgree parameter
              exact here mustAgree parameter ▸ first key mustAgree parameter
            · exact others key text own found
          · intro agrees
            obtain ⟨bears, first, uniform⟩ := agrees
            refine ⟨?_, ⟨?_, first⟩, uniform⟩
            · intro key parameter text found
              exact ((bears_cons.1 (bears key text found)).1 true parameter).symm
            · intro key text other found
              exact (bears_cons.1 (bears key text found)).2

theorem agrees_iff_uniform (size : segments.length = blocks.length)
    (checked : Segment.Checked segments) (apart : Segment.Apart segments) :
    Agrees separator segments blocks ↔ Uniform separator segments blocks := by
  rw [Agrees, agreesAfter_iff size checked apart]
  simp

end Cut

end PathPattern
