import PathPattern.Settings.Basic

namespace PathPattern.Settings

/-- Settings that nobody has checked yet. -/
structure Proposal where
  draft : Settings := {}
deriving DecidableEq, Repr

namespace Proposal

def withSeparator (proposal : Proposal) (value : Text) : Proposal :=
  ⟨{ proposal.draft with separator := value }⟩

def withOpening (proposal : Proposal) (value : Text) : Proposal :=
  ⟨{ proposal.draft with opening := value }⟩

def withClosing (proposal : Proposal) (value : Text) : Proposal :=
  ⟨{ proposal.draft with closing := value }⟩

def withWildcard (proposal : Proposal) (value : Text) : Proposal :=
  ⟨{ proposal.draft with wildcard := value }⟩

def withAgreement (proposal : Proposal) (value : Bool) : Proposal :=
  ⟨{ proposal.draft with agreement := value }⟩

/-- Makes the change that a setting stands for. -/
def set (proposal : Proposal) : Setting → Proposal
  | .separator value => proposal.withSeparator value
  | .opening value => proposal.withOpening value
  | .closing value => proposal.withClosing value
  | .wildcard value => proposal.withWildcard value
  | .agreement value => proposal.withAgreement value

def settle (proposal : Proposal) : Except SettingsError Settings := proposal.draft.checked

end Proposal

end PathPattern.Settings
