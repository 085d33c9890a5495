import PathPattern.Document.Basic
import PathPattern.Settings.Basic

namespace PathPattern

namespace Settings

/-- Reads settings from a record, which may have more fields, or from a list of the five values
alone.  No value is converted and none may be missing.  The settings are not checked. -/
def ofDocument? : Document → Option Settings
  | .record fields => do
      let separator ← (← Document.field? fields "separator").text?
      let opening ← (← Document.field? fields "prefix").text?
      let closing ← (← Document.field? fields "suffix").text?
      let wildcard ← (← Document.field? fields "wildcard").text?
      let agreement ← (← Document.field? fields "equality_check").flag?
      return { separator, opening, closing, wildcard, agreement }
  | .list [.text separator, .text opening, .text closing, .text wildcard, .flag agreement] =>
      some { separator, opening, closing, wildcard, agreement }
  | _ => none

def toDocument (settings : Settings) : Document :=
  .record [
    ("separator", .text settings.separator),
    ("prefix", .text settings.opening),
    ("suffix", .text settings.closing),
    ("wildcard", .text settings.wildcard),
    ("equality_check", .flag settings.agreement)]

theorem ofDocument?_toDocument (settings : Settings) :
    ofDocument? settings.toDocument = some settings := by
  cases settings
  rfl

end Settings

namespace Setting

def ofDocument? : Document → Option Setting
  | .record [("Separator", .text value)] => some (.separator value)
  | .record [("Prefix", .text value)] => some (.opening value)
  | .record [("Suffix", .text value)] => some (.closing value)
  | .record [("Wildcard", .text value)] => some (.wildcard value)
  | .record [("EqualityCheck", .flag value)] => some (.agreement value)
  | _ => none

def toDocument : Setting → Document
  | .separator value => .record [("Separator", .text value)]
  | .opening value => .record [("Prefix", .text value)]
  | .closing value => .record [("Suffix", .text value)]
  | .wildcard value => .record [("Wildcard", .text value)]
  | .agreement value => .record [("EqualityCheck", .flag value)]

theorem ofDocument?_toDocument (setting : Setting) :
    ofDocument? setting.toDocument = some setting := by
  cases setting <;> rfl

/-- Reads a list of settings; one item that is no setting refuses the list. -/
def listOfDocument? (document : Document) : Option (List Setting) := do
  (← document.list?).mapM ofDocument?

end Setting

end PathPattern
