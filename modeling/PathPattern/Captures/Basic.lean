import PathPattern.Text.Basic

namespace PathPattern

/-- A text for some keys.  `get?` is what captures mean; the order of the entries only says which
key was inserted first. -/
structure Captures where
  entries : List (Text × Text) := []
deriving DecidableEq, Repr

namespace Captures

def get? (captures : Captures) (key : Text) : Option Text := captures.entries.lookup key

def insertEntry (key value : Text) : List (Text × Text) → List (Text × Text)
  | [] => [(key, value)]
  | (other, text) :: rest =>
      if other = key then (key, value) :: rest else (other, text) :: insertEntry key value rest

/-- Gives a key a text, in place of the one that it had. -/
def insert (captures : Captures) (key value : Text) : Captures :=
  ⟨insertEntry key value captures.entries⟩

/-- The captures that entries make in order: the last text of a key stays. -/
def ofList (entries : List (Text × Text)) : Captures :=
  entries.foldl (fun captures (entry : Text × Text) => captures.insert entry.1 entry.2) {}

@[simp] theorem get?_empty (key : Text) : get? {} key = none := rfl

theorem lookup_cons (query : Text) (entry : Text × Text) (rest : List (Text × Text)) :
    (entry :: rest).lookup query = if query = entry.1 then some entry.2 else rest.lookup query := by
  obtain ⟨key, value⟩ := entry
  by_cases same : query = key
  · simp [same]
  · simp [List.lookup_cons, beq_false_of_ne same, same]

theorem lookup_insertEntry (key value query : Text) (entries : List (Text × Text)) :
    (insertEntry key value entries).lookup query =
      if query = key then some value else entries.lookup query := by
  fun_induction insertEntry key value entries with
  | case1 => rw [lookup_cons]
  | case2 text rest =>
      simp only [lookup_cons]
      split <;> rfl
  | case3 other text rest differs ih =>
      rw [lookup_cons, lookup_cons, ih]
      by_cases same : query = other
      · simp [same, differs]
      · simp [same]

@[simp] theorem get?_insert (captures : Captures) (key value query : Text) :
    (captures.insert key value).get? query =
      if query = key then some value else captures.get? query :=
  lookup_insertEntry key value query captures.entries

theorem insertEntry_insertEntry (key value other : Text) (entries : List (Text × Text)) :
    insertEntry key other (insertEntry key value entries) = insertEntry key other entries := by
  fun_induction insertEntry key value entries with
  | case1 => simp [insertEntry]
  | case2 text rest => simp [insertEntry]
  | case3 query text rest differs ih => simp [insertEntry, differs, ih]

@[simp] theorem insert_insert (captures : Captures) (key value other : Text) :
    (captures.insert key value).insert key other = captures.insert key other :=
  congrArg Captures.mk (insertEntry_insertEntry key value other captures.entries)

theorem ofList_concat (entries : List (Text × Text)) (key value : Text) :
    ofList (entries ++ [(key, value)]) = (ofList entries).insert key value := by
  rw [ofList, List.foldl_append]
  rfl

theorem get?_ofList (entries : List (Text × Text)) (key : Text) :
    (ofList entries).get? key = entries.reverse.lookup key := by
  suffices all : ∀ captures : Captures,
      (entries.foldl (fun captures (entry : Text × Text) =>
        captures.insert entry.1 entry.2) captures).get? key =
          (entries.reverse.lookup key).or (captures.get? key) from by
    simpa [ofList] using all {}
  induction entries with
  | nil => simp
  | cons entry rest ih =>
      intro captures
      rw [List.foldl_cons, ih, get?_insert, List.reverse_cons, List.lookup_append, Option.or_assoc,
        lookup_cons]
      by_cases same : key = entry.1 <;> simp [same]

end Captures

end PathPattern
