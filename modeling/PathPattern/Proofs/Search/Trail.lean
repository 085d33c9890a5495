import PathPattern.Commitment
import PathPattern.Proofs.Captures.Stack
import PathPattern.Proofs.Text.Extent
import PathPattern.Search.Basic

namespace PathPattern

/-! # The trail of a search

A trail lists the segments a search has passed, each with the block of pieces that it
took.  Every state of a search can be told from its trail, and from what the
wildcard at hand has taken already when the search has just fallen back to it: the
offsets are extents of pieces, the bindings are spans over blocks, and the place to
fall back to is the latest wildcard of the trail.
-/

/-- Segments with the blocks that they took, the latest first. -/
abbrev Trail := List (Segment × List Text)

namespace Trail

def segments : Trail → List Segment
  | [] => []
  | (segment, _) :: past => segments past ++ [segment]

def pieces : Trail → List Text
  | [] => []
  | (_, block) :: past => pieces past ++ block

def bound (enabled : Bool) (separator : Text) : Trail → Commitment.Bound
  | [] => []
  | (segment, block) :: past =>
      Commitment.remember enabled segment.key? (separator.intercalate block)
        (bound enabled separator past)

theorem length_segments (trail : Trail) : trail.segments.length = trail.length := by
  induction trail with
  | nil => rfl
  | cons entry past ih => simp [segments, ih]

end Trail

/-- Bindings read the texts that are bound, to a comparison and in order, and no span is
skipped. -/
structure Bindings.Reads (bindings : Bindings) (input : Text) (bound : Commitment.Bound) :
    Prop where
  texts : bindings.texts input = bound.reverse
  text? : ∀ key, bindings.text? input key = bound.lookup key

theorem Bindings.Reads.record {bindings : Bindings} {input value : Text}
    {bound : Commitment.Bound} {span : Span} (reads : bindings.Reads input bound)
    (segment : Segment) (read : span.read? input = some value) :
    (segment.record bindings span).Reads input
      (Commitment.remember bindings.enabled segment.key? value bound) := by
  simp only [Segment.record, Commitment.remember]
  cases segment.key? with
  | none => exact reads
  | some key =>
      by_cases enabled : bindings.enabled = true
      · constructor
        · simp [Bindings.texts_bind key read, enabled, reads.texts]
        · simp [Bindings.text?_bind, Captures.lookup_cons, enabled, read, reads.text?]
      · simpa [Bindings.bind, enabled] using reads

namespace Search

variable {search : Search} {trail past : Trail} {block : List Text} {segment : Segment}

/-- The offset behind the pieces of a trail and their separators. -/
def offsetAfter (search : Search) (trail : Trail) : Nat :=
  Text.extent search.separator trail.pieces

def spanAfter (search : Search) (trail : Trail) (block : List Text) : Span where
  start := search.offsetAfter trail
  stop := search.offsetAfter trail + Text.byteSize (search.separator.intercalate block)

def bindingsAfter (search : Search) : Trail → Bindings
  | [] => search.initial.bindings
  | (segment, block) :: past =>
      segment.record (search.bindingsAfter past) (search.spanAfter past block)

def boundAfter (search : Search) (trail : Trail) : Commitment.Bound :=
  trail.bound search.initial.bindings.enabled search.separator

theorem boundAfter_single (search : Search) (segment : Segment) (piece : Text) (trail : Trail) :
    search.boundAfter ((segment, [piece]) :: trail) =
      Commitment.remember search.initial.bindings.enabled segment.key? piece
        (search.boundAfter trail) := by
  simp only [boundAfter, Trail.bound, List.intercalate_singleton]

def placeAfter (search : Search) (trail : Trail) (block : List Text) : Fallback where
  wildcard := trail.length
  start := search.offsetAfter trail
  reach := Text.extent search.separator block
  bound := (search.bindingsAfter trail).size

def fallbackAfter (search : Search) : Trail → Option Fallback
  | [] => none
  | (segment, block) :: past =>
      if segment.isWildcard then some (search.placeAfter past block)
      else search.fallbackAfter past

/-- The state behind a trail.  If the search has just fallen back to the wildcard at
hand, the wildcard has `taken` pieces; otherwise nothing is taken. -/
def stateAfter (search : Search) (trail : Trail) (taken : List Text) : State where
  index := trail.length
  offset := search.offsetAfter trail
  reach := Text.extent search.separator taken
  fallback :=
    if taken.isEmpty then search.fallbackAfter trail else some (search.placeAfter trail taken)
  bindings := search.bindingsAfter trail

@[simp] theorem bindingsAfter_enabled (search : Search) (trail : Trail) :
    (search.bindingsAfter trail).enabled = search.initial.bindings.enabled := by
  induction trail with
  | nil => rfl
  | cons entry past ih =>
      simp only [bindingsAfter, Segment.record]
      split <;> simp [ih]

/-- The keys that are bound are those of the segments on the trail. -/
theorem keys_bindingsAfter (search : Search) (trail : Trail) :
    (search.bindingsAfter trail).entries.map Prod.fst =
      if search.initial.bindings.enabled then trail.segments.filterMap Segment.key? else [] := by
  induction trail with
  | nil => simp [bindingsAfter, initial, Trail.segments]
  | cons entry past ih =>
      obtain ⟨segment, block⟩ := entry
      simp only [bindingsAfter, Segment.record, Trail.segments, List.filterMap_append]
      cases own : segment.key? with
      | none => simpa [own] using ih
      | some key =>
          simp only [Bindings.bind, bindingsAfter_enabled]
          split
          · next enabled => simp [own, ih, enabled]
          · next disabled => simpa [disabled] using ih

/-- A trail over the first pieces of the input.  Every block has a piece. -/
structure Covers (search : Search) (trail : Trail) : Prop where
  separated : search.separator ≠ []
  nonempty : ∀ entry ∈ trail, entry.2 ≠ []
  pieces : trail.pieces <+: search.input.pieces search.separator

theorem Covers.of_cons (covers : Covers search ((segment, block) :: past)) :
    Covers search past where
  separated := covers.separated
  nonempty entry member := covers.nonempty entry (List.mem_cons_of_mem _ member)
  pieces := (List.prefix_append _ _).trans covers.pieces

theorem Covers.read?_spanAfter (covers : Covers search ((segment, block) :: past)) :
    (search.spanAfter past block).read? search.input =
      some (search.separator.intercalate block) := by
  obtain ⟨after, whole⟩ := covers.pieces
  have nonempty : block ≠ [] := covers.nonempty (segment, block) List.mem_cons_self
  exact Text.read?_block covers.separated nonempty whole.symm

theorem Covers.reads (covers : Covers search trail) :
    (search.bindingsAfter trail).Reads search.input (search.boundAfter trail) := by
  induction trail with
  | nil => exact ⟨rfl, fun key => rfl⟩
  | cons entry past ih =>
      obtain ⟨segment, block⟩ := entry
      have recorded := (ih covers.of_cons).record segment covers.read?_spanAfter
      rwa [bindingsAfter_enabled] at recorded

theorem size_bindingsAfter_le (search : Search) (segment : Segment) (block : List Text)
    (past : Trail) :
    (search.bindingsAfter past).size ≤ (search.bindingsAfter ((segment, block) :: past)).size := by
  simp only [bindingsAfter, Segment.record]
  split
  · exact Bindings.size_le_size_bind _ _ _
  · exact Nat.le_refl _

theorem keep_bindingsAfter {count : Nat} (segment : Segment) (block : List Text)
    (within : count ≤ (search.bindingsAfter past).size) :
    (search.bindingsAfter ((segment, block) :: past)).keep count =
      (search.bindingsAfter past).keep count := by
  simp only [bindingsAfter, Segment.record]
  split
  · exact Bindings.keep_bind _ _ within
  · rfl

theorem bound_le_size {place : Fallback} (found : search.fallbackAfter trail = some place) :
    place.bound ≤ (search.bindingsAfter trail).size := by
  induction trail with
  | nil => simp [fallbackAfter] at found
  | cons entry past ih =>
      obtain ⟨segment, block⟩ := entry
      have grown := search.size_bindingsAfter_le segment block past
      simp only [fallbackAfter] at found
      split at found
      · obtain rfl := Option.some.inj found
        exact grown
      · exact Nat.le_trans (ih found) grown

end Search

end PathPattern
