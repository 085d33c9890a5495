import PathPattern.Proofs.Settings.Acceptance
import PathPattern.Settings.Proposal

namespace PathPattern

/-- The parts of settings, each of which a setting can make. -/
inductive Part where
  | separator
  | opening
  | closing
  | wildcard
  | agreement
deriving DecidableEq, Repr

namespace Setting

variable {change : Setting} {changes others : List Setting}

def part : Setting → Part
  | .separator _ => .separator
  | .opening _ => .opening
  | .closing _ => .closing
  | .wildcard _ => .wildcard
  | .agreement _ => .agreement

/-- The settings of one part, in order. -/
def ofPart (part : Part) (changes : List Setting) : List Setting :=
  changes.filter fun change => change.part = part

def latest? (part : Part) (changes : List Setting) : Option Setting :=
  (ofPart part changes).getLast?

/-- Some settings are left out whose part is made again later. -/
inductive Prunes : List Setting → List Setting → Prop where
  | nil : Prunes [] []
  | keep {change : Setting} {changes others : List Setting} :
      Prunes changes others → Prunes (change :: changes) (change :: others)
  | drop {change : Setting} {changes others : List Setting} :
      (∃ later ∈ changes, later.part = change.part) → Prunes changes others →
        Prunes (change :: changes) others

/-- Settings change places with settings of other parts only. -/
def Reorders (changes others : List Setting) : Prop :=
  ∀ part, ofPart part changes = ofPart part others

theorem latest?_cons (change : Setting) (changes : List Setting) (part : Part) :
    latest? part (change :: changes) =
      if change.part = part then some ((latest? part changes).getD change)
      else latest? part changes := by
  simp only [latest?, ofPart, List.filter_cons, decide_eq_true_eq]
  split
  · rw [List.getLast?_cons]
  · rfl

theorem exists_latest? (member : change ∈ changes) :
    ∃ last, latest? change.part changes = some last := by
  have found : change ∈ ofPart change.part changes := List.mem_filter.2 ⟨member, by simp⟩
  exact ⟨_, List.getLast?_eq_some_getLast (List.ne_nil_of_mem found)⟩

theorem Prunes.latest?_eq (prunes : Prunes changes others) (part : Part) :
    latest? part others = latest? part changes := by
  induction prunes with
  | nil => rfl
  | keep _ ih => rw [latest?_cons, latest?_cons, ih]
  | drop again _ ih =>
      rw [ih, latest?_cons]
      split
      · next own =>
        obtain ⟨later, member, same⟩ := again
        obtain ⟨last, found⟩ := exists_latest? member
        rw [same, own] at found
        rw [found, Option.getD_some]
      · rfl

end Setting

namespace Settings

variable {settings first second : Settings} {changes others : List Setting}
  {fault : SettingsError}

/-- The setting that makes a part what it is. -/
def held (settings : Settings) : Part → Setting
  | .separator => .separator settings.separator
  | .opening => .opening settings.opening
  | .closing => .closing settings.closing
  | .wildcard => .wildcard settings.wildcard
  | .agreement => .agreement settings.agreement

theorem eq_of_held_eq (same : ∀ part, first.held part = second.held part) : first = second := by
  cases first
  cases second
  simp only [Settings.mk.injEq]
  exact ⟨Setting.separator.inj (same .separator), Setting.opening.inj (same .opening),
    Setting.closing.inj (same .closing), Setting.wildcard.inj (same .wildcard),
    Setting.agreement.inj (same .agreement)⟩

theorem held_apply (change : Setting) (settings : Settings) (part : Part) :
    (change.apply settings).held part =
      if change.part = part then change else settings.held part := by
  cases change <;> cases part <;> rfl

/-- The settings that a list makes of the default ones, unchecked. -/
def after (changes : List Setting) : Settings :=
  changes.foldl (fun settings (change : Setting) => change.apply settings) {}

theorem held_foldl (changes : List Setting) (settings : Settings) (part : Part) :
    (changes.foldl (fun settings (change : Setting) => change.apply settings) settings).held part =
      (Setting.latest? part changes).getD (settings.held part) := by
  induction changes generalizing settings with
  | nil => rfl
  | cons change rest ih =>
      rw [List.foldl_cons, ih, held_apply, Setting.latest?_cons]
      split
      · rw [Option.getD_some]
      · rfl

theorem held_after (changes : List Setting) (part : Part) :
    (after changes).held part = (Setting.latest? part changes).getD (held {} part) :=
  held_foldl changes {} part

/-- Only the latest setting of each part counts. -/
theorem after_eq_of_latest?_eq
    (same : ∀ part, Setting.latest? part changes = Setting.latest? part others) :
    after changes = after others :=
  eq_of_held_eq fun part => by rw [held_after, held_after, same]

namespace Proposal

theorem draft_set (proposal : Proposal) (change : Setting) :
    (proposal.set change).draft = change.apply proposal.draft := by
  cases change <;> rfl

theorem draft_foldl (changes : List Setting) (proposal : Proposal) :
    (changes.foldl set proposal).draft =
      changes.foldl (fun settings (change : Setting) => change.apply settings)
        proposal.draft := by
  induction changes generalizing proposal with
  | nil => rfl
  | cons change rest ih => rw [List.foldl_cons, ih, draft_set, List.foldl_cons]

end Proposal

/-- The reasons to refuse settings, in the order in which they count. -/
inductive FirstViolated (settings : Settings) : SettingsError → Prop where
  | emptySeparator (empty : settings.separator = []) : FirstViolated settings .emptySeparator
  | emptyWildcard (separated : settings.separator ≠ []) (empty : settings.wildcard = []) :
      FirstViolated settings .emptyWildcard
  | separatorInToken {token : Token} {front back : List Token}
      (separated : settings.separator ≠ []) (visible : settings.wildcard ≠ [])
      (order : [.opening, .closing, .wildcard] = front ++ token :: back)
      (uncut : ∀ earlier ∈ front, ¬ settings.separator <:+: earlier.value settings)
      (cut : settings.separator <:+: token.value settings) :
      FirstViolated settings
        (.separatorInToken token (token.value settings) settings.separator)

theorem tokenFault?_eq_some_iff {token : Token} :
    settings.tokenFault? token = some fault ↔ settings.separator <:+: token.value settings ∧
      fault = .separatorInToken token (token.value settings) settings.separator := by
  rw [← Text.includes_iff, tokenFault?]
  split
  · next held => simp [held, eq_comm]
  · next missing => simp [missing]

theorem fault?_eq_some_iff : settings.fault? = some fault ↔ settings.FirstViolated fault := by
  constructor
  · intro found
    simp only [fault?, List.isEmpty_iff] at found
    split at found
    · next empty =>
      obtain rfl := Option.some.inj found
      exact .emptySeparator empty
    · next separated =>
      split at found
      · next empty =>
        obtain rfl := Option.some.inj found
        exact .emptyWildcard separated empty
      · next visible =>
        obtain ⟨front, token, back, order, cut, uncut⟩ := List.findSome?_eq_some_iff.1 found
        obtain ⟨held, rfl⟩ := tokenFault?_eq_some_iff.1 cut
        exact .separatorInToken separated visible order
          (fun earlier member => tokenFault?_eq_none_iff.1 (uncut earlier member)) held
  · intro violated
    cases violated with
    | emptySeparator empty => simp only [fault?, List.isEmpty_iff, if_pos empty]
    | emptyWildcard separated empty =>
        simp only [fault?, List.isEmpty_iff, if_neg separated, if_pos empty]
    | separatorInToken separated visible order uncut cut =>
        simp only [fault?, List.isEmpty_iff, if_neg separated, if_neg visible]
        exact List.findSome?_eq_some_iff.2 ⟨_, _, _, order,
          tokenFault?_eq_some_iff.2 ⟨cut, rfl⟩,
          fun earlier member => tokenFault?_eq_none_iff.2 (uncut earlier member)⟩

theorem checked_eq_ok_iff :
    first.checked = .ok second ↔ second = first ∧ first.Accepted := by
  rw [checked, ← fault?_eq_none_iff]
  cases first.fault? with
  | none => simp [eq_comm]
  | some fault => simp

theorem checked_eq_error_iff :
    settings.checked = .error fault ↔ settings.FirstViolated fault := by
  rw [checked, ← fault?_eq_some_iff]
  cases settings.fault? with
  | none => simp
  | some other => simp

/-- Settings in a list and settings in a proposal come to the same.  What is made again later
can be left out, and different parts can be made in any order.  The result is accepted if it
can be used, and refused for the first reason otherwise. -/
theorem ofList_eq_settle (changes : List Setting) :
    ofList changes = (changes.foldl Proposal.set {}).settle ∧
      (∀ others, Setting.Prunes changes others → ofList others = ofList changes) ∧
      (∀ others, Setting.Reorders changes others → ofList others = ofList changes) ∧
      (∀ part, (after changes).held part =
        (Setting.latest? part changes).getD (held {} part)) ∧
      (∀ settings, ofList changes = .ok settings ↔
        settings = after changes ∧ (after changes).Accepted) ∧
      ∀ fault, ofList changes = .error fault ↔ (after changes).FirstViolated fault := by
  refine ⟨?_, ?_, ?_, held_after changes, fun settings => checked_eq_ok_iff,
    fun fault => checked_eq_error_iff⟩
  · rw [Proposal.settle, Proposal.draft_foldl]
    rfl
  · intro others prunes
    exact congrArg checked (after_eq_of_latest?_eq prunes.latest?_eq)
  · intro others reorders
    exact congrArg checked (after_eq_of_latest?_eq fun part =>
      congrArg List.getLast? (reorders part).symm)

/-- On the way the separator is empty and the wildcard holds it, which the later settings mend.
Two tokens that hold the separator are refused for the first one. -/
theorem ofList_eq_settle_mended :
    let changes : List Setting := [.separator [], .wildcard "a.b".toList,
      .separator ".".toList, .agreement true, .wildcard "*".toList]
    let pruned : List Setting := [.separator ".".toList, .agreement true, .wildcard "*".toList]
    let reordered : List Setting := [.wildcard "a.b".toList, .agreement true,
      .separator [], .wildcard "*".toList, .separator ".".toList]
    Setting.Prunes changes pruned ∧ ofList pruned = ofList changes ∧
      Setting.Reorders changes reordered ∧ ofList reordered = ofList changes ∧
      ofList changes = .ok { separator := ".".toList, agreement := true } ∧
      ofList [.closing "/".toList, .opening "a/".toList] =
        .error (.separatorInToken .opening "a/".toList "/".toList) := by
  intro changes pruned reordered
  have prunes : Setting.Prunes changes pruned :=
    .drop (by decide) (.drop (by decide) (.keep (.keep (.keep .nil))))
  have reorders : Setting.Reorders changes reordered := by
    intro part
    cases part <;> rfl
  obtain ⟨_, leftOut, inAnyOrder, _, accepted, _⟩ := ofList_eq_settle changes
  obtain ⟨_, _, _, _, _, refused⟩ := ofList_eq_settle [.closing "/".toList, .opening "a/".toList]
  refine ⟨prunes, leftOut pruned prunes, reorders, inAnyOrder reordered reorders,
    (accepted _).2 ⟨rfl, fault?_eq_none_iff.1 (by decide)⟩, (refused _).2 ?_⟩
  exact @FirstViolated.separatorInToken _ .opening [] [.closing, .wildcard] (by decide)
    (by decide) rfl (by simp) (by decide)

end Settings

end PathPattern
