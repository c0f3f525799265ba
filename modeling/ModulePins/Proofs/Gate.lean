import Mathlib.Data.List.Basic
import ModulePins.Gate

/-!
# What passes the gate

Modules pass the gate if every new major version among them is consented to, one after the other.
The first that is not is named by the failure, and nothing is asked any more. About each upgrade the
same three questions are put in the same order, and none about any other module.
-/

namespace ModulePins

/-- The lockfile has a version of the module with a smaller major number. -/
def PinnedModule.IsUpgraded (lock : Option Lockfile) (m : PinnedModule) : Prop :=
  ∃ l locked old new, lock = some l ∧ l.module? m.name = some locked ∧
    SemVer.read? locked.version = some old ∧ SemVer.read? m.version = some new ∧
      old.major < new.major

namespace Upgrade

variable {lock : Option Lockfile} {l : Lockfile} {m : PinnedModule} {u : Upgrade}

theorem isMajor_iff {old new : String} : isMajor old new = true ↔
    ∃ v w, SemVer.read? old = some v ∧ SemVer.read? new = some w ∧ v.major < w.major := by
  unfold isMajor
  cases SemVer.read? old with
  | none => simp
  | some v => cases SemVer.read? new <;> simp

theorem ofModule?_eq_some_iff : ofModule? l m = some u ↔
    u.pinned = m ∧ ∃ locked, l.module? m.name = some locked ∧ u.fromVersion = locked.version ∧
      isMajor locked.version m.version = true := by
  obtain ⟨pinned, fromVersion⟩ := u
  unfold ofModule?
  cases l.module? m.name with
  | none => simp
  | some locked =>
    by_cases hmajor : isMajor locked.version m.version = true
    · simp only [if_pos hmajor, Option.some.injEq, Upgrade.mk.injEq]
      constructor
      · rintro ⟨rfl, rfl⟩
        exact ⟨rfl, locked, rfl, rfl, hmajor⟩
      · rintro ⟨rfl, _, rfl, rfl, _⟩
        exact ⟨rfl, rfl⟩
    · simp [hmajor]

theorem ofModule?_eq_some {locked : LockedModule} {v w : SemVer}
    (hlocked : l.module? m.name = some locked) (hold : SemVer.read? locked.version = some v)
    (hnew : SemVer.read? m.version = some w) (hmajor : v.major < w.major) :
    ofModule? l m = some { pinned := m, fromVersion := locked.version } :=
  ofModule?_eq_some_iff.mpr ⟨rfl, locked, hlocked, rfl, isMajor_iff.mpr ⟨v, w, hold, hnew, hmajor⟩⟩

def among (lock : Option Lockfile) (modules : List PinnedModule) : List Upgrade :=
  modules.filterMap fun m => lock.bind (ofModule? · m)

theorem isUpgraded_iff : m.IsUpgraded lock ↔ (lock.bind (ofModule? · m)).isSome = true := by
  rw [Option.isSome_iff_exists]
  constructor
  · rintro ⟨l, locked, old, new, rfl, hlocked, hold, hnew, hmajor⟩
    exact ⟨_, ofModule?_eq_some hlocked hold hnew hmajor⟩
  · rintro ⟨u, hu⟩
    obtain ⟨l, rfl, hu⟩ := Option.bind_eq_some_iff.mp hu
    obtain ⟨_, locked, hlocked, _, hmajor⟩ := ofModule?_eq_some_iff.mp hu
    obtain ⟨old, new, hold, hnew, hlt⟩ := isMajor_iff.mp hmajor
    exact ⟨l, locked, old, new, rfl, hlocked, hold, hnew, hlt⟩

instance (lock : Option Lockfile) (m : PinnedModule) : Decidable (m.IsUpgraded lock) :=
  decidable_of_iff _ isUpgraded_iff.symm

/-- These are the upgrades among modules, in the order of the modules. -/
structure AreAmong (lock : Option Lockfile) (modules : List PinnedModule)
    (upgrades : List Upgrade) :
    Prop where
  pinned : upgrades.map pinned = modules.filter fun m => m.IsUpgraded lock
  locked : ∀ u ∈ upgrades, ∃ l locked, lock = some l ∧ l.module? u.pinned.name = some locked ∧
    u.fromVersion = locked.version

theorem areAmong_among (lock : Option Lockfile) (modules : List PinnedModule) :
    AreAmong lock modules (among lock modules) where
  pinned := by
    induction modules with
    | nil => rfl
    | cons m rest ih =>
      cases hu : lock.bind (ofModule? · m) with
      | none =>
        have hnot : ¬m.IsUpgraded lock := by simp [isUpgraded_iff, hu]
        have hrest : among lock (m :: rest) = among lock rest := List.filterMap_cons_none hu
        rw [hrest, ih, List.filter_cons_of_neg (by simpa using hnot)]
      | some u =>
        obtain ⟨l, _, hl⟩ := Option.bind_eq_some_iff.mp hu
        have hupgraded : m.IsUpgraded lock := by simp [isUpgraded_iff, hu]
        have hfirst : among lock (m :: rest) = u :: among lock rest := List.filterMap_cons_some hu
        rw [hfirst, List.map_cons, ih, List.filter_cons_of_pos (by simpa using hupgraded),
          (ofModule?_eq_some_iff.mp hl).1]
  locked := by
    intro u hu
    obtain ⟨m, _, hm⟩ := List.mem_filterMap.mp hu
    obtain ⟨l, rfl, hl⟩ := Option.bind_eq_some_iff.mp hm
    obtain ⟨rfl, locked, hlocked, hversion, _⟩ := ofModule?_eq_some_iff.mp hl
    exact ⟨l, locked, rfl, hlocked, hversion⟩

end Upgrade

namespace Gate

variable {σ : Type} {inquiry : Inquiry σ} {token : Option String} {st mid st' : σ} {u : Upgrade}

/-- What comes of asking for release notes. -/
abbrev Notes := Except Failure String

/-- A question, with what it is about. -/
inductive Call where
  | isInteractive
  | fetchNotes (name version : String) (token : Option String)
  | confirm (name fromVersion toVersion notes : String)
  deriving DecidableEq, Repr

/-- The same inquiry with a record of the questions. -/
def Inquiry.recorded (inquiry : Inquiry σ) : Inquiry (σ × List Call) where
  isInteractive := fun (st, calls) =>
    let (answer, st) := inquiry.isInteractive st
    (answer, (st, calls ++ [.isInteractive]))
  fetchNotes name version token := fun (st, calls) =>
    let (notes, st) := inquiry.fetchNotes name version token st
    (notes, (st, calls ++ [.fetchNotes name version token]))
  confirm name fromVersion toVersion text := fun (st, calls) =>
    let (answer, st) := inquiry.confirm name fromVersion toVersion text st
    (answer, (st, calls ++ [.confirm name fromVersion toVersion text]))

/-- Notes may be unavailable, and an answer may not come; nothing else goes wrong. -/
structure Inquiry.IsProper (inquiry : Inquiry σ) : Prop where
  notes : ∀ name version token st failure,
    (inquiry.fetchNotes name version token st).1 = .error failure →
      ∃ reason, failure = .notesUnavailable reason
  answers : ∀ name fromVersion toVersion text st failure,
    (inquiry.confirm name fromVersion toVersion text st).1 = .error failure →
      failure = .accident .aborted ∨ (∃ text, failure = .accident (.endOfInput text)) ∨
        ∃ fault, failure = .accident (.file fault)

theorem Inquiry.IsProper.recorded (h : inquiry.IsProper) : inquiry.recorded.IsProper where
  notes := fun name version token st => h.notes name version token st.1
  answers := fun name fromVersion toVersion text st =>
    h.answers name fromVersion toVersion text st.1

def shown : Notes → String
  | .ok notes => Markdown.render notes
  | .error _ => ""

def warnings (u : Upgrade) (notes : Notes) : List Notice :=
  (shownNotes u.pinned notes).notices

/-- The questions put about an upgrade when somebody is there. -/
def callsAbout (token : Option String) (u : Upgrade) (notes : Notes) : List Call :=
  [.isInteractive, .fetchNotes u.pinned.name u.toVersion token,
    .confirm u.pinned.name u.fromVersion u.toVersion (shown notes)]

/-- Somebody was there, the notes were asked for and shown, and an answer was given. -/
structure Answered (inquiry : Inquiry σ) (token : Option String) (u : Upgrade) (notes : Notes)
    (answer : Except Failure Bool) (st st' : σ) : Prop where
  steps : ∃ present told, inquiry.isInteractive st = (true, present) ∧
    inquiry.fetchNotes u.pinned.name u.toVersion token present = (notes, told) ∧
      inquiry.confirm u.pinned.name u.fromVersion u.toVersion (shown notes) told = (answer, st')

/-- Upgrades that were consented to one after the other, with what came of asking for notes. -/
inductive Consented (inquiry : Inquiry σ) (token : Option String) :
    List (Upgrade × Notes) → σ → σ → Prop where
  | none (st : σ) : Consented inquiry token [] st st
  | next {u : Upgrade} {notes : Notes} {rest : List (Upgrade × Notes)} {st mid st' : σ}
      (hfirst : Answered inquiry token u notes (.ok true) st mid)
      (hrest : Consented inquiry token rest mid st') :
      Consented inquiry token ((u, notes) :: rest) st st'

/-- An upgrade that was not consented to, with what came of asking for notes if it came to that, and
the reason. -/
inductive Refused (inquiry : Inquiry σ) (token : Option String) (u : Upgrade) :
    Option Notes → String → σ → σ → Prop where
  | nobody {st st' : σ} (h : inquiry.isInteractive st = (false, st')) :
      Refused inquiry token u none notInteractive st st'
  | declined {notes : Notes} {st st' : σ} (h : Answered inquiry token u notes (.ok false) st st') :
      Refused inquiry token u (some notes) declined st st'
  | unanswered {notes : Notes} {failure : Failure} {st st' : σ}
      (h : Answered inquiry token u notes (.error failure) st st') :
      Refused inquiry token u (some notes) ("failed to read confirmation: " ++ failure.message) st st'

theorem outcome_shownNotes (hproper : inquiry.IsProper) {notes : Notes} {name version : String}
    (h : (inquiry.fetchNotes name version token st).1 = notes) (m : PinnedModule) :
    (shownNotes m notes).outcome = .ok (shown notes) := by
  cases notes with
  | ok text => rfl
  | error failure =>
    obtain ⟨reason, rfl⟩ := hproper.notes name version token st failure h
    rfl

theorem Answered.askFor (hproper : inquiry.IsProper) {notes : Notes} {answer : Except Failure Bool}
    (h : Answered inquiry token u notes answer st st') :
    askFor inquiry token u st = ({ outcome := judge u answer, notices := warnings u notes }, st') := by
  obtain ⟨present, told, hpresent, hnotes, hanswer⟩ := h.steps
  have hshown := outcome_shownNotes hproper (congrArg Prod.fst hnotes) u.pinned
  simp only [Gate.askFor, bind, StateT.bind, hpresent, if_true, hnotes, hshown, hanswer]
  rfl

def callsRefused (token : Option String) (u : Upgrade) : Option Notes → List Call
  | none => [.isInteractive]
  | some notes => callsAbout token u notes

def warningsRefused (u : Upgrade) : Option Notes → List Notice
  | none => []
  | some notes => warnings u notes

theorem answerFailure_eq (hproper : inquiry.IsProper) {name fromVersion toVersion text : String}
    {failure : Failure}
    (h : (inquiry.confirm name fromVersion toVersion text st).1 = .error failure) (u : Upgrade) :
    answerFailure u failure = u.rejected ("failed to read confirmation: " ++ failure.message) := by
  obtain rfl | ⟨text, rfl⟩ | ⟨fault, rfl⟩ :=
    hproper.answers name fromVersion toVersion text st failure h
  · exact congrArg u.rejected String.append_empty.symm
  · rfl
  · rfl

theorem Refused.askFor (hproper : inquiry.IsProper) {notes : Option Notes} {reason : String}
    (h : Refused inquiry token u notes reason st st') : askFor inquiry token u st =
      ({ outcome := .error (u.rejected reason), notices := warningsRefused u notes }, st') := by
  cases h with
  | nobody h =>
    simp only [Gate.askFor, bind, StateT.bind, h, Bool.false_eq_true, if_false]
    rfl
  | declined h => exact h.askFor hproper
  | unanswered h =>
    obtain ⟨present, told, _, _, hanswer⟩ := h.steps
    rw [h.askFor hproper, judge, answerFailure_eq hproper (congrArg Prod.fst hanswer)]
    rfl

theorem answered_or_refused (inquiry : Inquiry σ) (token : Option String) (u : Upgrade) (st : σ) :
    (∃ notes st', Answered inquiry token u notes (.ok true) st st') ∨
      ∃ notes reason st', Refused inquiry token u notes reason st st' := by
  obtain ⟨present, hpresent⟩ : ∃ present, inquiry.isInteractive st = present := ⟨_, rfl⟩
  obtain ⟨_ | _, present⟩ := present
  · exact .inr ⟨_, _, _, .nobody hpresent⟩
  · obtain ⟨notes, told, hnotes⟩ : ∃ notes told,
        inquiry.fetchNotes u.pinned.name u.toVersion token present = (notes, told) := ⟨_, _, rfl⟩
    obtain ⟨answer, st', hanswer⟩ : ∃ answer st',
        inquiry.confirm u.pinned.name u.fromVersion u.toVersion (shown notes) told =
          (answer, st') := ⟨_, _, rfl⟩
    have hanswered : Answered inquiry token u notes answer st st' :=
      ⟨present, told, hpresent, hnotes, hanswer⟩
    match answer, hanswered with
    | .ok true, h => exact .inl ⟨_, _, h⟩
    | .ok false, h => exact .inr ⟨_, _, _, .declined h⟩
    | .error failure, h => exact .inr ⟨_, _, _, .unanswered h⟩

/-- Either every upgrade is consented to or there is a first one that is not. -/
theorem consented_or_refused (inquiry : Inquiry σ) (token : Option String)
    (upgrades : List Upgrade) (st : σ) :
    (∃ told st', told.map Prod.fst = upgrades ∧ Consented inquiry token told st st') ∨
      ∃ told u rest notes reason mid st', upgrades = told.map Prod.fst ++ u :: rest ∧
        Consented inquiry token told st mid ∧ Refused inquiry token u notes reason mid st' := by
  induction upgrades generalizing st with
  | nil => exact .inl ⟨[], st, rfl, .none st⟩
  | cons first others ih =>
    obtain ⟨notes, mid, hfirst⟩ | ⟨notes, reason, st', hrefused⟩ :=
      answered_or_refused inquiry token first st
    · obtain ⟨told, st', rfl, htold⟩ | ⟨told, u, rest, what, reason, last, st', rfl, htold, hu⟩ :=
        ih mid
      · exact .inl ⟨(first, notes) :: told, st', rfl, .next hfirst htold⟩
      · exact .inr ⟨(first, notes) :: told, u, rest, what, reason, last, st', rfl,
          .next hfirst htold, hu⟩
    · exact .inr ⟨[], first, others, notes, reason, st, st', rfl, .none st, hrefused⟩

def allWarnings (told : List (Upgrade × Notes)) : List Notice :=
  told.flatMap fun about => warnings about.1 about.2

def allCalls (token : Option String) (told : List (Upgrade × Notes)) : List Call :=
  told.flatMap fun about => callsAbout token about.1 about.2

/-- What was consented to is behind one: the rest decides. -/
theorem Consented.askForAll_append (hproper : inquiry.IsProper) {told : List (Upgrade × Notes)}
    (h : Consented inquiry token told st mid) (rest : List Upgrade) :
    askForAll inquiry token (told.map Prod.fst ++ rest) st =
      ({ (askForAll inquiry token rest mid).1 with
          notices := allWarnings told ++ (askForAll inquiry token rest mid).1.notices },
        (askForAll inquiry token rest mid).2) := by
  induction h with
  | none st => rfl
  | @next u notes others st between mid hfirst hothers ih =>
    have hstep := hfirst.askFor hproper
    simp only [List.map_cons, List.cons_append, askForAll, bind, StateT.bind, hstep, judge, ih,
      allWarnings, List.flatMap_cons, List.append_assoc]
    rfl

theorem Consented.askForAll (hproper : inquiry.IsProper) {told : List (Upgrade × Notes)}
    (h : Consented inquiry token told st st') : askForAll inquiry token (told.map Prod.fst) st =
      ({ outcome := .ok (), notices := allWarnings told }, st') := by
  have happend := h.askForAll_append hproper []
  have hnone : Gate.askForAll inquiry token [] st' = (.ok (), st') := rfl
  simpa [hnone, Report.ok] using happend

theorem Refused.askForAll (hproper : inquiry.IsProper) {told : List (Upgrade × Notes)}
    {notes : Option Notes} {reason : String} (hbefore : Consented inquiry token told st mid)
    (h : Refused inquiry token u notes reason mid st') (rest : List Upgrade) :
    askForAll inquiry token (told.map Prod.fst ++ u :: rest) st =
      ({ outcome := .error (u.rejected reason)
         notices := allWarnings told ++ warningsRefused u notes }, st') := by
  have hstep := h.askFor hproper
  have hstop : Gate.askForAll inquiry token (u :: rest) mid =
      ({ outcome := .error (u.rejected reason), notices := warningsRefused u notes }, st') := by
    simp only [Gate.askForAll, bind, StateT.bind, hstep]
    rfl
  rw [hbefore.askForAll_append hproper, hstop]

/-! ## The record of the questions -/

theorem Answered.recorded {notes : Notes} {answer : Except Failure Bool}
    (h : Answered inquiry token u notes answer st st') (calls : List Call) :
    Answered inquiry.recorded token u notes answer (st, calls)
      (st', calls ++ callsAbout token u notes) := by
  obtain ⟨present, told, hpresent, hnotes, hanswer⟩ := h.steps
  refine ⟨(present, calls ++ [.isInteractive]),
    (told, calls ++ [.isInteractive] ++ [.fetchNotes u.pinned.name u.toVersion token]), ?_, ?_, ?_⟩
  · simp [Inquiry.recorded, hpresent]
  · simp [Inquiry.recorded, hnotes]
  · simp [Inquiry.recorded, hanswer, callsAbout]

theorem Consented.recorded {told : List (Upgrade × Notes)}
    (h : Consented inquiry token told st st') (calls : List Call) :
    Consented inquiry.recorded token told (st, calls) (st', calls ++ allCalls token told) := by
  induction h generalizing calls with
  | none st =>
    rw [allCalls, List.flatMap_nil, List.append_nil]
    exact .none _
  | next hfirst hrest ih =>
    rw [allCalls, List.flatMap_cons, ← List.append_assoc]
    exact .next (hfirst.recorded calls) (ih _)

theorem Refused.recorded {notes : Option Notes} {reason : String}
    (h : Refused inquiry token u notes reason st st') (calls : List Call) :
    Refused inquiry.recorded token u notes reason (st, calls)
      (st', calls ++ callsRefused token u notes) := by
  cases h with
  | nobody h => exact .nobody (by simp [Inquiry.recorded, h, callsRefused])
  | declined h => exact .declined (h.recorded calls)
  | unanswered h => exact .unanswered (h.recorded calls)

/-! ## The whole gate -/

theorem check_allowed (inquiry : Inquiry σ) (lock : Option Lockfile) (token : Option String)
    (modules : List PinnedModule) (st : σ) : check inquiry lock true token modules st =
      ({ outcome := .ok (), notices := (Upgrade.among lock modules).map Upgrade.allowedNotice },
        st) := by
  cases lock with
  | none =>
    simp only [check, Upgrade.among, Option.bind_none, List.filterMap_none]
    rfl
  | some l => rfl

theorem check_unallowed (inquiry : Inquiry σ) (lock : Option Lockfile) (token : Option String)
    (modules : List PinnedModule) :
    check inquiry lock false token modules =
      askForAll inquiry token (Upgrade.among lock modules) := by
  cases lock with
  | none => simp [check, Upgrade.among, askForAll]
  | some l => rfl

/-- What comes of asking for consent to upgrades, and the questions put. -/
structure Lawful (inquiry : Inquiry σ) (token : Option String) (upgrades : List Upgrade) (st : σ)
    (report : Report Unit) (st' : σ) (calls : List Call) : Prop where
  returned : ∀ told last, told.map Prod.fst = upgrades → Consented inquiry token told st last →
    report = { outcome := .ok (), notices := allWarnings told } ∧ st' = last ∧
      calls = allCalls token told
  rejected : ∀ told u rest notes reason mid last, upgrades = told.map Prod.fst ++ u :: rest →
    Consented inquiry token told st mid → Refused inquiry token u notes reason mid last →
      report = { outcome := .error (.upgradeRejected u.pinned.name u.fromVersion u.toVersion reason)
                 notices := allWarnings told ++ warningsRefused u notes } ∧ st' = last ∧
        calls = allCalls token told ++ callsRefused token u notes
  returns_iff : report.outcome = .ok () ↔
    ∃ told last, told.map Prod.fst = upgrades ∧ Consented inquiry token told st last
  rejects_iff : (∃ name fromVersion toVersion reason,
      report.outcome = .error (.upgradeRejected name fromVersion toVersion reason)) ↔
    ∃ told u rest notes reason mid last, upgrades = told.map Prod.fst ++ u :: rest ∧
      Consented inquiry token told st mid ∧ Refused inquiry token u notes reason mid last

/-- Keeping a record changes neither the result nor what lies behind the questions. -/
theorem askForAll_recorded (hproper : inquiry.IsProper) (token : Option String)
    (upgrades : List Upgrade) (st : σ) :
    ∃ report st' calls, askForAll inquiry token upgrades st = (report, st') ∧
      askForAll inquiry.recorded token upgrades (st, []) = (report, (st', calls)) := by
  obtain ⟨told, st', rfl, htold⟩ | ⟨told, u, rest, notes, reason, mid, st', rfl, htold, hu⟩ :=
    consented_or_refused inquiry token upgrades st
  · exact ⟨_, _, _, htold.askForAll hproper, (htold.recorded []).askForAll hproper.recorded⟩
  · exact ⟨_, _, _, hu.askForAll hproper htold rest,
      (hu.recorded _).askForAll hproper.recorded (htold.recorded []) rest⟩

theorem lawful_of_askForAll (hproper : inquiry.IsProper) {upgrades : List Upgrade}
    {report : Report Unit} {calls : List Call}
    (hrun : askForAll inquiry token upgrades st = (report, st'))
    (hrecorded : askForAll inquiry.recorded token upgrades (st, []) = (report, (st', calls))) :
    Lawful inquiry token upgrades st report st' calls := by
  have hreturned : ∀ told last, told.map Prod.fst = upgrades →
      Consented inquiry token told st last →
        report = { outcome := .ok (), notices := allWarnings told } ∧ st' = last ∧
          calls = allCalls token told := by
    rintro told last rfl htold
    have hask := (htold.recorded []).askForAll hproper.recorded
    rw [hrecorded] at hask
    exact ⟨congrArg Prod.fst hask, congrArg (·.2.1) hask, congrArg (·.2.2) hask⟩
  have hrejected : ∀ told u rest notes reason mid last,
      upgrades = told.map Prod.fst ++ u :: rest → Consented inquiry token told st mid →
      Refused inquiry token u notes reason mid last →
        report = { outcome := .error (u.rejected reason)
                   notices := allWarnings told ++ warningsRefused u notes } ∧ st' = last ∧
          calls = allCalls token told ++ callsRefused token u notes := by
    rintro told u rest notes reason mid last rfl htold hu
    have hask := (hu.recorded _).askForAll hproper.recorded (htold.recorded []) rest
    rw [hrecorded] at hask
    exact ⟨congrArg Prod.fst hask, congrArg (·.2.1) hask, congrArg (·.2.2) hask⟩
  -- The two endings exclude each other by their outcomes, and there is no third.
  have hends := consented_or_refused inquiry token upgrades st
  refine ⟨hreturned, hrejected, ⟨fun hok => ?_, ?_⟩, ⟨fun hfailed => ?_, ?_⟩⟩
  · obtain hall | ⟨told, u, rest, notes, reason, mid, last, hu, htold, hrefused⟩ := hends
    · exact hall
    · rw [(hrejected told u rest notes reason mid last hu htold hrefused).1] at hok
      cases hok
  · rintro ⟨told, last, htold, hall⟩
    rw [(hreturned told last htold hall).1]
  · obtain ⟨told, last, htold, hall⟩ | hfirst := hends
    · obtain ⟨_, _, _, _, herror⟩ := hfailed
      rw [(hreturned told last htold hall).1] at herror
      cases herror
    · exact hfirst
  · rintro ⟨told, u, rest, notes, reason, mid, last, hu, htold, hrefused⟩
    rw [(hrejected told u rest notes reason mid last hu htold hrefused).1]
    exact ⟨_, _, _, _, rfl⟩

/-- With consent given beforehand nothing is asked and every upgrade is told of. Without it the
upgrades are asked for one by one, until one is refused; missing notes are no reason to refuse. -/
theorem check_lawful (hproper : inquiry.IsProper) (lock : Option Lockfile) (token : Option String)
    (modules : List PinnedModule) (st : σ) :
    ∃ upgrades, Upgrade.AreAmong lock modules upgrades ∧
      check inquiry.recorded lock true token modules (st, []) =
        ({ outcome := .ok (), notices := upgrades.map Upgrade.allowedNotice }, (st, [])) ∧
      ∃ report st' calls, check inquiry lock false token modules st = (report, st') ∧
        check inquiry.recorded lock false token modules (st, []) = (report, (st', calls)) ∧
        Lawful inquiry token upgrades st report st' calls := by
  refine ⟨Upgrade.among lock modules, Upgrade.areAmong_among lock modules,
    check_allowed inquiry.recorded lock token modules (st, []), ?_⟩
  rw [check_unallowed, check_unallowed]
  obtain ⟨report, st', calls, hrun, hrecorded⟩ :=
    askForAll_recorded hproper token (Upgrade.among lock modules) st
  exact ⟨report, st', calls, hrun, hrecorded, lawful_of_askForAll hproper hrun hrecorded⟩

/-- Somebody with a fixed list of answers, who leaves after the last. -/
def scripted : Inquiry (List Bool) where
  isInteractive := fun answers => (!answers.isEmpty, answers)
  fetchNotes name _ _ := fun answers =>
    if name = "b" then (.error (.notesUnavailable "offline"), answers) else (.ok "# New", answers)
  confirm _ _ _ _ := fun answers =>
    match answers with
    | [] => (.error (.accident .aborted), [])
    | answer :: rest => (.ok answer, rest)

theorem scripted_isProper : scripted.IsProper where
  notes := by
    intro name version token st failure h
    by_cases hname : name = "b"
    · simp only [scripted, hname, if_true, Except.error.injEq] at h
      exact ⟨"offline", h.symm⟩
    · simp [scripted, hname] at h
  answers := by
    intro name fromVersion toVersion text st failure h
    cases st with
    | nil =>
      simp only [scripted, Except.error.injEq] at h
      exact .inl h.symm
    | cons answer rest => simp [scripted] at h

def upgradedLock : Lockfile where
  modules := [
    { name := "a", version := "1.4.0" }, { name := "b", version := "v2" },
    { name := "c", version := "3.0.0" }, { name := "d", version := "1.0.0" },
    { name := "f", version := "0.9.0" }, { name := "g", version := "1.0.0" }]

/-- Modules of which `a`, `b`, `f` and `g` went up. -/
def upgradedModules : List PinnedModule :=
  [{ name := "a", uri := "https://a", version := "2.0.0" },
    { name := "c", uri := "https://c", version := "3.9.0" },
    { name := "d", uri := "https://d", version := "main" },
    { name := "b", uri := "https://b", version := "3.0.0-rc.1" },
    { name := "e", uri := "https://e", version := "7.0.0" },
    { name := "f", uri := "https://f", version := "v1.0" },
    { name := "g", uri := "https://g", version := "2.0.0" }]

theorem check_lawful_declined :
    scripted.IsProper ∧
      (∃ upgrades, Upgrade.AreAmong (some upgradedLock) upgradedModules upgrades ∧
        ∃ report st' calls,
          check scripted.recorded (some upgradedLock) false none upgradedModules
            ([true, false], []) = (report, (st', calls)) ∧
          Lawful scripted none upgrades [true, false] report st' calls) ∧
      (check scripted.recorded (some upgradedLock) false none upgradedModules
        ([true, false], [])).2 = ([], [
          .isInteractive, .fetchNotes "a" "2.0.0" none,
            .confirm "a" "1.4.0" "2.0.0" (Markdown.render "# New"),
          .isInteractive, .fetchNotes "b" "3.0.0-rc.1" none,
            .confirm "b" "v2" "3.0.0-rc.1" ""]) := by
  refine ⟨scripted_isProper, ?_, by decide +kernel⟩
  obtain ⟨upgrades, hupgrades, _, report, st', calls, _, hrun, hlawful⟩ :=
    check_lawful scripted_isProper (some upgradedLock) none upgradedModules [true, false]
  exact ⟨upgrades, hupgrades, report, st', calls, hrun, hlawful⟩

end Gate

end ModulePins
