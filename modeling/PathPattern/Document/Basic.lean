import PathPattern.Text.Basic

namespace PathPattern

/-- A value of a data format with records and lists, such as settings are kept in.  The names of
the fields of a record differ from one another. -/
inductive Document where
  | null
  | flag (value : Bool)
  /-- The mantissa divided by a power of ten. -/
  | number (mantissa : Int) (places : Nat)
  | text (value : Text)
  | list (items : List Document)
  | record (fields : List (String × Document))

instance : Inhabited Document := ⟨.null⟩

namespace Document

def field? (fields : List (String × Document)) (name : String) : Option Document :=
  fields.lookup name

def flag? : Document → Option Bool
  | .flag value => some value
  | _ => none

def text? : Document → Option Text
  | .text value => some value
  | _ => none

def list? : Document → Option (List Document)
  | .list items => some items
  | _ => none

end Document

end PathPattern
