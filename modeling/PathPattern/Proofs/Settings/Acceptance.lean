import PathPattern.Proofs.Text.Pieces
import PathPattern.Settings.Basic

namespace PathPattern.Settings

/-- What a pattern needs of its settings: a separator that cuts, a wildcard that
is seen, and no token that the separator would cut apart. -/
structure Accepted (settings : Settings) : Prop where
  separator_ne_nil : settings.separator ≠ []
  wildcard_ne_nil : settings.wildcard ≠ []
  uncut : ∀ token : Token, ¬ settings.separator <:+: token.value settings

theorem tokenFault?_eq_none_iff {settings : Settings} {token : Token} :
    settings.tokenFault? token = none ↔ ¬ settings.separator <:+: token.value settings := by
  rw [← Text.includes_iff]
  simp [tokenFault?]

theorem fault?_eq_none_iff {settings : Settings} :
    settings.fault? = none ↔ settings.Accepted := by
  have everyToken (token : Token) : token ∈ Token.all := by
    cases token <;> decide
  constructor
  · intro clean
    simp only [fault?] at clean
    split at clean
    · simp at clean
    · next separator =>
      split at clean
      · simp at clean
      · next wildcard =>
        exact ⟨by simpa using separator, by simpa using wildcard, fun token =>
          tokenFault?_eq_none_iff.1 (List.findSome?_eq_none_iff.1 clean token (everyToken token))⟩
  · intro accepted
    simp only [fault?, List.isEmpty_iff, accepted.separator_ne_nil, accepted.wildcard_ne_nil,
      if_false]
    exact List.findSome?_eq_none_iff.2 fun token _ =>
      tokenFault?_eq_none_iff.2 (accepted.uncut token)

end PathPattern.Settings
