import PathPattern.Text.Basic

namespace PathPattern

/-! # Settings

Four tokens and one flag say how a pattern is written.  A `Setting` changes one
of them.  Changes are not checked one by one, so a later change may mend what an
earlier one broke; only the settings that result are accepted or refused.
-/

structure Settings where
  separator : Text := "/".toList
  opening : Text := ":".toList
  closing : Text := []
  wildcard : Text := "*".toList
  /-- Parameters of one name must bind equal texts. -/
  agreement : Bool := false
deriving DecidableEq, Repr

inductive Setting where
  | separator (value : Text)
  | opening (value : Text)
  | closing (value : Text)
  | wildcard (value : Text)
  | agreement (value : Bool)
deriving DecidableEq, Repr

def Setting.apply : Setting → Settings → Settings
  | .separator value, settings => { settings with separator := value }
  | .opening value, settings => { settings with opening := value }
  | .closing value, settings => { settings with closing := value }
  | .wildcard value, settings => { settings with wildcard := value }
  | .agreement value, settings => { settings with agreement := value }

/-- The tokens that stand in the pieces of a pattern. -/
inductive Token where
  | opening
  | closing
  | wildcard
deriving DecidableEq, Repr

namespace Token

def all : List Token := [.opening, .closing, .wildcard]

def value : Token → Settings → Text
  | .opening, settings => settings.opening
  | .closing, settings => settings.closing
  | .wildcard, settings => settings.wildcard

/-- The word for a token in messages and documents. -/
def word : Token → String
  | .opening => "prefix"
  | .closing => "suffix"
  | .wildcard => "wildcard"

end Token

inductive SettingsError where
  | emptySeparator
  | emptyWildcard
  | separatorInToken (token : Token) (value separator : Text)
deriving DecidableEq, Repr

def SettingsError.message : SettingsError → String
  | .emptySeparator => "separator must not be empty"
  | .emptyWildcard => "wildcard token must not be empty"
  | .separatorInToken token value separator =>
      token.word ++ " " ++ value.quoted ++ " contains the separator " ++ separator.quoted

namespace Settings

def tokenFault? (settings : Settings) (token : Token) : Option SettingsError :=
  if (token.value settings).includes settings.separator then
    some (.separatorInToken token (token.value settings) settings.separator)
  else none

/-- The first reason to refuse settings: the empty tokens are looked at before
the tokens that hold the separator. -/
def fault? (settings : Settings) : Option SettingsError :=
  if settings.separator.isEmpty then some .emptySeparator
  else if settings.wildcard.isEmpty then some .emptyWildcard
  else Token.all.findSome? settings.tokenFault?

def checked (settings : Settings) : Except SettingsError Settings :=
  match settings.fault? with
  | none => .ok settings
  | some fault => .error fault

/-- The default settings are accepted, with agreement or without. -/
theorem fault?_default (agreement : Bool) : fault? { agreement } = none := by
  cases agreement <;> decide

/-- Makes the changes of a list over the default settings, in order, and checks
the result once. -/
def ofList (changes : List Setting) : Except SettingsError Settings :=
  (changes.foldl (fun settings (change : Setting) => change.apply settings) {}).checked

end Settings

end PathPattern
