import PathPattern.Captures.Bindings

namespace PathPattern.Bindings

variable {bindings : Bindings} {input key text : Text} {span : Span} {count : Nat}
  {changes : List Change}

/-- What is done to bindings, one at a time. -/
inductive Change where
  | bind (key : Text) (span : Span)
  | keep (count : Nat)
deriving DecidableEq, Repr

def change (bindings : Bindings) : Change → Bindings
  | .bind key span => bindings.bind key span
  | .keep count => bindings.keep count

def after (bindings : Bindings) (changes : List Change) : Bindings := changes.foldl change bindings

/-- While changes are made, there are never fewer bindings than a number of them. -/
def StaysAbove (bindings : Bindings) (count : Nat) (changes : List Change) : Prop :=
  ∀ made, made <+: changes → count ≤ (bindings.after made).size

theorem staysAbove_iff : bindings.StaysAbove count changes ↔
    ∀ number < changes.length + 1, count ≤ (bindings.after (changes.take number)).size := by
  constructor
  · intro stays number _
    exact stays _ (List.take_prefix number changes)
  · intro stays made begins
    rw [List.prefix_iff_eq_take.1 begins]
    exact stays made.length (Nat.lt_succ_of_le begins.length_le)

instance decidableStaysAbove (bindings : Bindings) (count : Nat) (changes : List Change) :
    Decidable (bindings.StaysAbove count changes) :=
  decidable_of_iff _ staysAbove_iff.symm

/-- The latest binding of a key among those that count. -/
structure Latest (bindings : Bindings) (key : Text) (counts : Span → Prop) (span : Span) :
    Prop where
  counted : counts span
  divided : ∃ older newer, bindings.entries = older ++ (key, span) :: newer ∧
    ∀ entry ∈ newer, entry.1 = key → ¬ counts entry.2

/-- How a key is read in the two ways, and how far these agree. -/
structure Readings (bindings : Bindings) (input key : Text) : Prop where
  captured : ∀ text, (bindings.captures input).get? key = some text ↔
    ∃ span, bindings.Latest key (fun span => (span.read? input).isSome = true) span ∧
      span.read? input = some text
  uncaptured : (bindings.captures input).get? key = none ↔
    ∀ span, (key, span) ∈ bindings.entries → span.read? input = none
  bound : ∀ text, bindings.text? input key = some text ↔
    ∃ span, bindings.Latest key (fun _ => True) span ∧ span.read? input = some text
  unbound : bindings.text? input key = none ↔
    ∀ span, bindings.Latest key (fun _ => True) span → span.read? input = none
  agree : ∀ text, bindings.text? input key = some text →
    (bindings.captures input).get? key = some text
  differ : bindings.text? input key ≠ (bindings.captures input).get? key →
    ∃ span, bindings.Latest key (fun _ => True) span ∧ span.read? input = none

def recording : Bindings := { enabled := true }

def silent : Bindings := { enabled := false }

@[simp] theorem bind_silent (key : Text) (span : Span) : silent.bind key span = silent := rfl

@[simp] theorem keep_silent (count : Nat) : silent.keep count = silent := by
  simp [silent, keep]

@[simp] theorem size_silent : silent.size = 0 := rfl

theorem after_silent (changes : List Change) : silent.after changes = silent := by
  induction changes with
  | nil => rfl
  | cons first rest ih => cases first <;> simpa [after, change] using ih

theorem text?_bind (bindings : Bindings) (input key query : Text) (span : Span) :
    (bindings.bind key span).text? input query =
      if bindings.enabled = true ∧ query = key then span.read? input
      else bindings.text? input query := by
  unfold bind
  split
  · next enabled =>
    rw [text?, latest?, List.reverse_append, List.reverse_singleton, List.singleton_append]
    by_cases same : query = key
    · simp [enabled, same]
    · simp [enabled, same, List.lookup_cons, beq_false_of_ne same, text?, latest?]
  · next disabled => simp [disabled]

theorem texts_bind {bindings : Bindings} {input value : Text} {span : Span} (key : Text)
    (read : span.read? input = some value) :
    (bindings.bind key span).texts input =
      bindings.texts input ++ if bindings.enabled then [(key, value)] else [] := by
  unfold bind
  split <;> simp [texts, read]

theorem size_le_size_bind (bindings : Bindings) (key : Text) (span : Span) :
    bindings.size ≤ (bindings.bind key span).size := by
  unfold bind
  split <;> simp [size]

theorem size_keep (bindings : Bindings) (count : Nat) :
    (bindings.keep count).size = min count bindings.size := List.length_take

theorem keep_keep (bindings : Bindings) (first second : Nat) :
    (bindings.keep first).keep second = bindings.keep (min second first) := by
  simp only [keep, List.take_take]

/-- A change that leaves enough bindings is not seen among the first ones. -/
theorem keep_change {first : Change} (enough : count ≤ bindings.size)
    (still : count ≤ (bindings.change first).size) :
    (bindings.change first).keep count = bindings.keep count := by
  cases first with
  | bind key span => exact keep_bind key span enough
  | keep number =>
      have fewer : count ≤ min number bindings.size := by rwa [← size_keep]
      rw [change, keep_keep, Nat.min_eq_left (Nat.le_trans fewer (Nat.min_le_left _ _))]

theorem StaysAbove.tail {first : Change} (stays : bindings.StaysAbove count (first :: changes)) :
    (bindings.change first).StaysAbove count changes :=
  fun made begins => stays (first :: made) (List.cons_prefix_cons.2 ⟨rfl, begins⟩)

theorem keep_after (stays : bindings.StaysAbove count changes) :
    (bindings.after changes).keep count = bindings.keep count := by
  induction changes generalizing bindings with
  | nil => rfl
  | cons first rest ih =>
      have now := stays [] List.nil_prefix
      have next := stays.tail [] List.nil_prefix
      exact (ih stays.tail).trans (keep_change now next)

/-- Whatever is looked for from the latest binding back is found at the latest one that has it. -/
theorem findSome?_reverse_eq_some_iff {α : Type} (bindings : Bindings) (key : Text)
    (look : Span → Option α) (value : α) :
    (bindings.entries.reverse.findSome? fun entry =>
        if key = entry.1 then look entry.2 else none) = some value ↔
      ∃ span, bindings.Latest key (fun span => (look span).isSome = true) span ∧
        look span = some value := by
  rw [List.findSome?_eq_some_iff]
  constructor
  · rintro ⟨newer, ⟨other, span⟩, older, divided, here, passed⟩
    obtain ⟨rfl, found⟩ : key = other ∧ look span = some value := by simpa using here
    refine ⟨span, ⟨by simp [found], older.reverse, newer.reverse, ?_, ?_⟩, found⟩
    · simpa using congrArg List.reverse divided
    · intro entry member own
      simpa [own] using passed entry (List.mem_reverse.1 member)
  · rintro ⟨span, ⟨_, older, newer, divided, passed⟩, found⟩
    refine ⟨newer.reverse, (key, span), older.reverse, by simp [divided], by simp [found], ?_⟩
    intro entry member
    by_cases own : key = entry.1
    · simpa [own] using passed entry (List.mem_reverse.1 member) own.symm
    · simp [own]

theorem latest?_eq_some_iff :
    bindings.latest? key = some span ↔ bindings.Latest key (fun _ => True) span := by
  simpa [latest?, List.lookup_eq_findSome?] using
    findSome?_reverse_eq_some_iff bindings key some span

theorem text?_eq_some_iff :
    bindings.text? input key = some text ↔
      ∃ span, bindings.Latest key (fun _ => True) span ∧ span.read? input = some text := by
  simp only [text?, Option.bind_eq_some_iff, latest?_eq_some_iff]

theorem lookup_filterMap_read? (input key : Text) (entries : List (Text × Span)) :
    (entries.filterMap fun (entry : Text × Span) =>
        (entry.2.read? input).map fun value => (entry.1, value)).lookup key =
      entries.findSome? fun entry => if key = entry.1 then entry.2.read? input else none := by
  induction entries with
  | nil => rfl
  | cons entry rest ih =>
      cases read : entry.2.read? input with
      | none => simp [read, ih]
      | some value => by_cases own : key = entry.1 <;> simp [read, ih, own, Captures.lookup_cons]

theorem get?_captures_eq_some_iff :
    (bindings.captures input).get? key = some text ↔
      ∃ span, bindings.Latest key (fun span => (span.read? input).isSome = true) span ∧
        span.read? input = some text := by
  rw [captures, Captures.get?_ofList, texts, ← List.filterMap_reverse, lookup_filterMap_read?]
  exact findSome?_reverse_eq_some_iff bindings key (fun span => span.read? input) text

theorem get?_captures_eq_none_iff :
    (bindings.captures input).get? key = none ↔
      ∀ span, (key, span) ∈ bindings.entries → span.read? input = none := by
  rw [captures, Captures.get?_ofList, texts, ← List.filterMap_reverse, lookup_filterMap_read?,
    List.findSome?_eq_none_iff]
  constructor
  · intro passed span member
    simpa using passed (key, span) (List.mem_reverse.2 member)
  · rintro unread ⟨other, span⟩ member
    by_cases own : key = other
    · subst own
      simpa using unread span (List.mem_reverse.1 member)
    · simp [own]

theorem text?_eq_none_iff :
    bindings.text? input key = none ↔
      ∀ span, bindings.Latest key (fun _ => True) span → span.read? input = none := by
  simp only [text?, Option.bind_eq_none_iff, latest?_eq_some_iff]

theorem get?_captures_of_text? (bound : bindings.text? input key = some text) :
    (bindings.captures input).get? key = some text := by
  obtain ⟨span, ⟨_, older, newer, divided, others⟩, read⟩ := text?_eq_some_iff.1 bound
  refine get?_captures_eq_some_iff.2 ⟨span, ⟨by simp [read], older, newer, divided, ?_⟩, read⟩
  intro entry member own
  exact absurd trivial (others entry member own)

theorem exists_latest (member : (key, span) ∈ bindings.entries) :
    ∃ latest, bindings.Latest key (fun _ => True) latest := by
  have found : (bindings.latest? key).isSome = true :=
    List.lookup_isSome_iff.2 ⟨(key, span), List.mem_reverse.2 member, beq_self_eq_true key⟩
  obtain ⟨latest, here⟩ := Option.isSome_iff_exists.1 found
  exact ⟨latest, latest?_eq_some_iff.1 here⟩

theorem exists_unread_of_ne
    (differ : bindings.text? input key ≠ (bindings.captures input).get? key) :
    ∃ span, bindings.Latest key (fun _ => True) span ∧ span.read? input = none := by
  cases bound : bindings.text? input key with
  | some text => exact absurd (bound.trans (get?_captures_of_text? bound).symm) differ
  | none =>
      cases captured : (bindings.captures input).get? key with
      | none => exact absurd (bound.trans captured.symm) differ
      | some text =>
          -- What is captured has been bound, so there is a latest binding, and it has no text.
          obtain ⟨span, ⟨_, older, newer, divided, _⟩, _⟩ := get?_captures_eq_some_iff.1 captured
          have member : (key, span) ∈ bindings.entries := by simp [divided]
          obtain ⟨latest, here⟩ := exists_latest member
          exact ⟨latest, here, text?_eq_none_iff.1 bound latest here⟩

theorem readings (bindings : Bindings) (input key : Text) : bindings.Readings input key where
  captured _ := get?_captures_eq_some_iff
  uncaptured := get?_captures_eq_none_iff
  bound _ := text?_eq_some_iff
  unbound := text?_eq_none_iff
  agree _ := get?_captures_of_text?
  differ := exists_unread_of_ne

/-- Undoing brings back the answers of a moment if there have not been fewer bindings since
then, and undoes nothing that is not there.  After any changes a comparison reads the latest
binding of a key and captures the latest one that can be read.  Without recording, nothing is
ever bound. -/
theorem keep_restores_answers :
    (∀ earlier later,
      let moment := recording.after earlier
      moment.StaysAbove moment.size later → ∀ input key,
        let undone := (moment.after later).keep moment.size
        undone.text? input key = moment.text? input key ∧
          undone.captures input = moment.captures input) ∧
      (∀ changes count, (recording.after changes).size ≤ count →
        (recording.after changes).keep count = recording.after changes) ∧
      (∀ changes input key, (recording.after changes).Readings input key) ∧
      ∀ changes input key, (silent.after changes).size = 0 ∧
        (silent.after changes).text? input key = none ∧
        (silent.after changes).captures input = {} := by
  refine ⟨?_, fun changes count => keep_of_size_le, fun changes => readings _, ?_⟩
  · intro earlier later moment stays input key
    have restored : (moment.after later).keep moment.size = moment :=
      (keep_after stays).trans (keep_of_size_le (Nat.le_refl _))
    simp only [restored, and_self]
  · intro changes input key
    rw [after_silent]
    exact ⟨rfl, rfl, rfl⟩

/-- The key is bound again out of the input, and undone with what came behind.  Before that a
comparison has no text for it, and captures still have the old one. -/
theorem keep_restores_answers_rebound :
    let input := "a/b".toList
    let moment := recording.after [.bind ['k'] ⟨0, 1⟩]
    let later : List Change := [.bind ['k'] ⟨5, 9⟩, .bind ['x'] ⟨2, 3⟩, .keep 2, .bind ['x'] ⟨0, 3⟩]
    let rebound := recording.after [.bind ['k'] ⟨0, 1⟩, .bind ['k'] ⟨5, 9⟩]
    moment.StaysAbove moment.size later ∧
      ((moment.after later).keep moment.size).text? input ['k'] = some ['a'] ∧
      rebound.text? input ['k'] = none ∧
      (rebound.captures input).get? ['k'] = some ['a'] ∧
      (∃ span, rebound.Latest ['k'] (fun _ => True) span ∧ span.read? input = none) ∧
      rebound.keep 7 = rebound ∧
      (silent.after later).captures input = {} := by
  intro input moment later rebound
  obtain ⟨restores, beyond, readings, quiet⟩ := keep_restores_answers
  have stays : moment.StaysAbove moment.size later := by decide
  have undone := restores [.bind ['k'] ⟨0, 1⟩] later stays input ['k']
  have both := readings [.bind ['k'] ⟨0, 1⟩, .bind ['k'] ⟨5, 9⟩] input ['k']
  exact ⟨stays, undone.1.trans rfl, rfl, rfl, both.differ (by decide),
    beyond [.bind ['k'] ⟨0, 1⟩, .bind ['k'] ⟨5, 9⟩] 7 (by decide),
    (quiet later input ['k']).2.2⟩

end PathPattern.Bindings
