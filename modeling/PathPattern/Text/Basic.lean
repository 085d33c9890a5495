namespace PathPattern

/-! # Texts and their byte offsets

A text is a list of characters.  Offsets into it count the bytes of its UTF-8
form, so an offset names a place in the text only at a character boundary:
`splitAt?` answers exactly at those.  `breakAt?` is the one search of the
library: it finds the leftmost occurrence of a mark.
-/

abbrev Text := List Char

namespace Text

def byteSize : Text → Nat
  | [] => 0
  | c :: rest => c.utf8Size + byteSize rest

/-- Cuts a text at a byte offset.  An offset inside a character or past the end
has no cut. -/
def splitAt? : Text → Nat → Option (Text × Text)
  | text, 0 => some ([], text)
  | [], _ + 1 => none
  | c :: rest, offset + 1 =>
      if c.utf8Size ≤ offset + 1 then
        (splitAt? rest (offset + 1 - c.utf8Size)).map fun (front, back) => (c :: front, back)
      else none

/-- Cuts a text around the leftmost occurrence of a mark. -/
def breakAt? : Text → Text → Option (Text × Text)
  | [], mark => if mark.isEmpty then some ([], []) else none
  | c :: rest, mark =>
      match mark.isPrefixOf? (c :: rest) with
      | some back => some ([], back)
      | none => (breakAt? rest mark).map fun (front, back) => (c :: front, back)

def includes (text mark : Text) : Bool := (text.breakAt? mark).isSome

/-- A text between single quotes, as messages show it. -/
def quoted (text : Text) : String := "'" ++ String.ofList text ++ "'"

end Text

end PathPattern
