import ModulePins.Proofs.Pinning

/-!
# What pinning comes to

Pinning checks first and changes the project afterwards: a project with a module that is not locked
is refused, and so is a lockfile with a local module. Otherwise the requests of the project are
pinned where they stand, and requests for the other locked modules follow them. Only a locked module
without a name is noticed too late, when the project has been changed already.
-/

namespace ModulePins

def Lockfile.names (lock : Lockfile) : List String :=
  lock.modules.map LockedModule.name

def LockedModule.IsLocal (m : LockedModule) : Prop :=
  m.url ≠ "" ∧ Location.isLocal m.url = true

instance (m : LockedModule) : Decidable m.IsLocal :=
  inferInstanceAs (Decidable (_ ∧ _))

namespace Pinning

variable {p after : Project} {lock : Lockfile} {m : LockedModule} {name : String}
variable {outcome : Except Failure Unit}

theorem isLocked_iff_mem_names : isLocked lock name = true ↔ name ∈ lock.names := by
  rw [isLocked_iff, Lockfile.names, List.mem_map]

/-- Why a request that is not locked cannot be met. -/
def missingReason (p : Project) (r : Requirement) : String :=
  r.name ++ ": requested by " ++ p.name ++ " but not found in the lockfile"

theorem missing_eq (p : Project) (lock : Lockfile) :
    missing p lock = (p.modules.filter fun r => r.name ∉ lock.names).map (missingReason p) := by
  have hlocked : (fun name => !isLocked lock name) = fun name => decide (name ∉ lock.names) := by
    funext name
    rw [Bool.eq_iff_iff, Bool.not_eq_true', ← Bool.not_eq_true, isLocked_iff_mem_names,
      decide_eq_true_iff]
  rw [missing, hlocked, List.filter_map, List.map_map]
  rfl

theorem missing_eq_nil_iff : missing p lock = [] ↔ ∀ r ∈ p.modules, r.name ∈ lock.names := by
  simp [missing_eq]

theorem localModule?_eq_find? (lock : Lockfile) :
    localModule? lock = lock.modules.find? fun m => decide m.IsLocal := by
  have hlocal : (fun m : LockedModule => decide (m.url ≠ "") && Location.isLocal m.url) =
      fun m => decide m.IsLocal := by
    funext m
    rw [Bool.eq_iff_iff, Bool.and_eq_true, decide_eq_true_iff, decide_eq_true_iff]
    rfl
  rw [localModule?, hlocal]

theorem localModule?_eq_some : localModule? lock = some m ↔
    m.IsLocal ∧ ∃ before rest, lock.modules = before ++ m :: rest ∧
      ∀ other ∈ before, ¬other.IsLocal := by
  simp [localModule?_eq_find?, List.find?_eq_some_iff_append]

theorem localModule?_eq_none_iff :
    localModule? lock = none ↔ ∀ m ∈ lock.modules, ¬m.IsLocal := by
  simp [localModule?_eq_find?]

def unnamedFailure : Failure :=
  .accident (.badRecord "ModuleRequest" [{ complaint := .refused Requirement.unnamedReason }])

theorem make_unnamed (hname : m.name = "") :
    Requirement.make m.name m.version = .error unnamedFailure := by
  rw [hname]
  rfl

theorem addAll_unnamed {before rest : List LockedModule}
    (hbefore : ∀ other ∈ before, other.name ≠ "") (hname : m.name = "") (p : Project) :
    addAll (before ++ m :: rest) p =
      ({ p with modules := p.modules ++ before.map request }, .error unnamedFailure) := by
  induction before generalizing p with
  | nil => simp [addAll, make_unnamed hname]
  | cons other before ih =>
    rw [List.forall_mem_cons] at hbefore
    simp [addAll, make_request hbefore.1, ih hbefore.2]

/-- All have names, or there is a first one that has none. -/
theorem named_or_first_unnamed (locked : List LockedModule) :
    (∀ m ∈ locked, m.name ≠ "") ∨ ∃ before m rest, locked = before ++ m :: rest ∧
      (∀ other ∈ before, other.name ≠ "") ∧ m.name = "" := by
  cases hfind : locked.find? fun m => m.name = "" with
  | none => exact .inl (by simpa using hfind)
  | some m =>
    obtain ⟨hname, before, rest, hsplit, hbefore⟩ := List.find?_eq_some_iff_append.mp hfind
    exact .inr ⟨before, m, rest, hsplit, by simpa using hbefore, by simpa using hname⟩

/-- A project whose own requests are pinned, and that has requests for some more locked modules. -/
def pinnedWith (p : Project) (lock : Lockfile) (added : List LockedModule) : Project :=
  { p with modules := p.modules.map (pin lock) ++ added.map request }

/-- All requests of a project are locked, and no locked module is local. -/
structure Fits (p : Project) (lock : Lockfile) : Prop where
  locked : ∀ r ∈ p.modules, r.name ∈ lock.names
  remote : ∀ m ∈ lock.modules, ¬m.IsLocal

/-- The lockfile fits, but one of the modules to be added has no name. The first such module comes
after `before`. -/
structure Tears (p : Project) (lock : Lockfile) (before : List LockedModule) : Prop
    extends Fits p lock where
  named : ∀ m ∈ before, m.name ≠ ""
  unnamed : ∃ m rest, extra p lock = before ++ m :: rest ∧ m.name = ""

/-- The ways in which pinning can end, each with the project as it is then. -/
inductive Ends (p : Project) : Option Lockfile → Project → Except Failure Unit → Prop
  | noLockfile : Ends p none p (.error .lockfileRequired)
  | missing {lock : Lockfile} (hmissing : ∃ r ∈ p.modules, r.name ∉ lock.names) :
      Ends p (some lock) p (.error (.missingFromLock
        ((p.modules.filter fun r => r.name ∉ lock.names).map (missingReason p))))
  | localModule {lock : Lockfile} {before rest : List LockedModule} {m : LockedModule}
      (hlocked : ∀ r ∈ p.modules, r.name ∈ lock.names)
      (hsplit : lock.modules = before ++ m :: rest) (hbefore : ∀ other ∈ before, ¬other.IsLocal)
      (hlocal : m.IsLocal) : Ends p (some lock) p (.error (.localReplacement m.name m.url))
  | torn {lock : Lockfile} {before : List LockedModule} (htears : Tears p lock before) :
      Ends p (some lock) (pinnedWith p lock before) (.error unnamedFailure)
  | pinned {lock : Lockfile} (hfits : Fits p lock) (hnamed : ∀ m ∈ extra p lock, m.name ≠ "") :
      Ends p (some lock) (pinned p lock) (.ok ())

theorem apply_of_fits (h : Fits p lock) :
    apply p (some lock) =
      addAll (extra p lock) { p with modules := p.modules.map (pin lock) } := by
  simp only [apply, missing_eq_nil_iff.mpr h.locked, localModule?_eq_none_iff.mpr h.remote]
  rfl

/-- Pinning succeeds if the lockfile fits and all modules to be added have names. -/
theorem Fits.apply_eq (h : Fits p lock) (hnamed : ∀ m ∈ extra p lock, m.name ≠ "") :
    apply p (some lock) = (pinned p lock, .ok ()) := by
  rw [apply_of_fits h, addAll_eq hnamed]
  rfl

theorem ends_apply (p : Project) (lock : Option Lockfile) :
    Ends p lock (apply p lock).1 (apply p lock).2 := by
  cases lock with
  | none => exact .noLockfile
  | some lock =>
    by_cases hmissing : missing p lock = []
    · have hlocked := missing_eq_nil_iff.mp hmissing
      cases hlocal : localModule? lock with
      | some m =>
        obtain ⟨hm, before, rest, hsplit, hbefore⟩ := localModule?_eq_some.mp hlocal
        simp only [apply, hmissing, hlocal]
        exact .localModule hlocked hsplit hbefore hm
      | none =>
        have hfits : Fits p lock := ⟨hlocked, localModule?_eq_none_iff.mp hlocal⟩
        rcases named_or_first_unnamed (extra p lock) with hnamed | ⟨before, m, rest, hsplit, hbefore,
          hname⟩
        · rw [hfits.apply_eq hnamed]
          exact .pinned hfits hnamed
        · rw [apply_of_fits hfits, hsplit, addAll_unnamed hbefore hname]
          exact .torn ⟨hfits, hbefore, m, rest, hsplit, hname⟩
    · have happly : apply p (some lock) = (p, .error (.missingFromLock (missing p lock))) := by
        simp [apply, hmissing]
      have hne : ∃ r ∈ p.modules, r.name ∉ lock.names := by
        simpa [missing_eq_nil_iff] using hmissing
      rw [happly, missing_eq]
      exact .missing hne

/-- If pinning fails, the project is as it was, unless a locked module without a name was to be
added: then its requests are pinned, and requests for the modules before that one are there. -/
theorem unchanged_or_torn {lock : Option Lockfile} {failure : Failure}
    (h : (apply p lock).2 = .error failure) :
    ((apply p lock).1 = p ∧ ∀ l before, lock = some l → ¬Tears p l before) ∨
      ∃ l before, lock = some l ∧ Tears p l before ∧ failure = unnamedFailure ∧
        (apply p lock).1 = pinnedWith p l before := by
  have hends := ends_apply p lock
  rw [h] at hends
  generalize (apply p lock).1 = after at hends ⊢
  cases hends with
  | noLockfile => exact .inl ⟨rfl, nofun⟩
  | missing hmissing =>
    refine .inl ⟨rfl, ?_⟩
    rintro _ before ⟨⟩ htears
    obtain ⟨r, hr, hunlocked⟩ := hmissing
    exact hunlocked (htears.locked r hr)
  | localModule _ hsplit _ hlocal =>
    refine .inl ⟨rfl, ?_⟩
    rintro _ before ⟨⟩ htears
    exact htears.remote _ (by simp [hsplit]) hlocal
  | torn htears => exact .inr ⟨_, _, rfl, htears, rfl, rfl⟩

/-- A project with one request, whose lockfile fits but for the last module. -/
def tornProject : Project where
  name := "svc"
  modules := [{ name := "a", version := ">=0.1.0" }]

def tornLock : Lockfile where
  modules := [
    { name := "a", url := "https://a", version := "1.0.0" },
    { name := "b", url := "https://b", version := "2.0.0" },
    { name := "", url := "https://c", version := "3.0.0" }]

/-- The project is torn after the failure. -/
theorem unchanged_or_torn_unnamed :
    (apply tornProject (some tornLock)).2 = .error unnamedFailure ∧
      ∃ before, Tears tornProject tornLock before ∧
        (apply tornProject (some tornLock)).1 = pinnedWith tornProject tornLock before := by
  have hfails : (apply tornProject (some tornLock)).2 = .error unnamedFailure := rfl
  refine ⟨hfails, ?_⟩
  rcases unchanged_or_torn hfails with ⟨hsame, _⟩ | ⟨_, before, ⟨⟩, htears, _, hafter⟩
  · exact absurd (congrArg (fun p => p.modules.map Requirement.version) hsame) (by decide)
  · exact ⟨before, htears, hafter⟩

theorem failure_changes : ∃ failure, (apply tornProject (some tornLock)).2 = .error failure ∧
    (apply tornProject (some tornLock)).1 ≠ tornProject := by
  refine ⟨unnamedFailure, rfl, ?_⟩
  intro hsame
  exact absurd (congrArg (fun p => p.modules.map Requirement.version) hsame) (by decide)

/-- What pinning a project to a lockfile has to come to: a report of all requests that are not
locked, or else of the first local module, or else pinned requests that cannot be pinned any
further. -/
structure Lawful (p : Project) (lock : Lockfile) (after : Project) (outcome : Except Failure Unit) :
    Prop where
  missing_iff : (∃ reasons, outcome = .error (.missingFromLock reasons)) ↔
    ∃ r ∈ p.modules, r.name ∉ lock.names
  reasons : ∀ reasons, outcome = .error (.missingFromLock reasons) →
    reasons = (p.modules.filter fun r => r.name ∉ lock.names).map (missingReason p)
  local_iff : (∃ name url, outcome = .error (.localReplacement name url)) ↔
    (∀ r ∈ p.modules, r.name ∈ lock.names) ∧ ∃ m ∈ lock.modules, m.IsLocal
  first_local : ∀ name url, outcome = .error (.localReplacement name url) →
    ∃ before m rest, lock.modules = before ++ m :: rest ∧ (∀ other ∈ before, ¬other.IsLocal) ∧
      m.IsLocal ∧ m.name = name ∧ m.url = url
  unchanged : ∀ failure, outcome = .error failure → after = p
  returns_iff : outcome = .ok () ↔
    (∀ r ∈ p.modules, r.name ∈ lock.names) ∧ ∀ m ∈ lock.modules, ¬m.IsLocal
  requests : outcome = .ok () → ∃ kept added, after = { p with modules := kept ++ added } ∧
    List.Forall₂ (fun r pinned => ∃ m, lock.module? r.name = some m ∧
      pinned = { r with version := m.version, channel := "", prerelease := false }) p.modules kept ∧
    added = (lock.modules.filter fun m => m.name ∉ p.modules.map Requirement.name).map fun m =>
      { name := m.name, version := m.version }
  names : outcome = .ok () → ∀ name, name ∈ after.modules.map Requirement.name ↔ name ∈ lock.names
  again : outcome = .ok () → apply after (some lock) = (after, .ok ())

theorem module?_of_mem (hdistinct : lock.names.Nodup) (hm : m ∈ lock.modules) :
    lock.module? m.name = some m :=
  find?_name hdistinct hm

theorem extra_eq (p : Project) (lock : Lockfile) :
    extra p lock = lock.modules.filter fun m => m.name ∉ p.modules.map Requirement.name := by
  have hunlisted : (fun m : LockedModule => p.modules.all fun q => decide (q.name ≠ m.name)) =
      fun m => decide (m.name ∉ p.modules.map Requirement.name) := by
    funext m
    rw [Bool.eq_iff_iff]
    simp
  rw [extra, hunlisted]

theorem names_pinned (h : Fits p lock) :
    name ∈ (pinned p lock).modules.map Requirement.name ↔ name ∈ lock.names := by
  have hkept : (p.modules.map (pin lock)).map Requirement.name = p.modules.map Requirement.name := by
    rw [List.map_map]
    rfl
  have hadded : ((extra p lock).map request).map Requirement.name =
      (extra p lock).map LockedModule.name := by
    rw [List.map_map]
    rfl
  rw [pinned, List.map_append, hkept, hadded, List.mem_append]
  constructor
  · rintro (hname | hname)
    · obtain ⟨r, hr, rfl⟩ := List.mem_map.mp hname
      exact h.locked r hr
    · obtain ⟨m, hm, rfl⟩ := List.mem_map.mp hname
      exact List.mem_map_of_mem (List.mem_of_mem_filter hm)
  · intro hname
    by_cases hlisted : name ∈ p.modules.map Requirement.name
    · exact .inl hlisted
    · obtain ⟨m, hm, rfl⟩ := List.mem_map.mp hname
      refine .inr (List.mem_map_of_mem ?_)
      rw [extra_eq, List.mem_filter]
      exact ⟨hm, decide_eq_true hlisted⟩

theorem Fits.pinned (h : Fits p lock) : Fits (pinned p lock) lock where
  locked := fun _ hr => (names_pinned h).mp (List.mem_map_of_mem hr)
  remote := h.remote

theorem pin_pin (lock : Lockfile) (r : Requirement) : pin lock (pin lock r) = pin lock r := rfl

theorem pin_request (hdistinct : lock.names.Nodup) (hm : m ∈ lock.modules) :
    pin lock (request m) = request m := by
  have hversion : versionOf lock (request m).name = m.version := versionOf_eq hdistinct hm
  rw [pin, hversion]
  rfl

theorem apply_pinned (hdistinct : lock.names.Nodup) (h : Fits p lock) :
    apply (pinned p lock) (some lock) = (pinned p lock, .ok ()) := by
  have hextra : extra (pinned p lock) lock = [] := by
    rw [extra_eq, List.filter_eq_nil_iff]
    intro m hm
    simpa using (names_pinned h).mpr (List.mem_map_of_mem hm)
  have hkept : (pinned p lock).modules.map (pin lock) = (pinned p lock).modules := by
    refine (List.map_congr_left ?_).trans (List.map_id _)
    intro r hr
    rcases List.mem_append.mp hr with hr | hr
    · obtain ⟨asked, _, rfl⟩ := List.mem_map.mp hr
      exact pin_pin lock asked
    · obtain ⟨m, hm, rfl⟩ := List.mem_map.mp hr
      exact pin_request hdistinct (List.mem_of_mem_filter hm)
  rw [apply_of_fits h.pinned, hextra, hkept]
  rfl

theorem forall₂_pin (hdistinct : lock.names.Nodup) (h : Fits p lock) :
    List.Forall₂ (fun r pinned => ∃ m, lock.module? r.name = some m ∧
      pinned = { r with version := m.version, channel := "", prerelease := false })
      p.modules (p.modules.map (pin lock)) := by
  rw [List.forall₂_map_right_iff, List.forall₂_same]
  intro r hr
  obtain ⟨m, hm, hname⟩ := List.mem_map.mp (h.locked r hr)
  refine ⟨m, hname ▸ module?_of_mem hdistinct hm, ?_⟩
  rw [pin, ← hname, versionOf_eq hdistinct hm]

/-- Pinning to a lockfile with distinct names, none of them empty, comes to what it has to. -/
theorem apply_lawful (p : Project) (hnamed : "" ∉ lock.names) (hdistinct : lock.names.Nodup) :
    Lawful p lock (apply p (some lock)).1 (apply p (some lock)).2 := by
  have hends := ends_apply p (some lock)
  generalize (apply p (some lock)).1 = after at hends ⊢
  generalize (apply p (some lock)).2 = outcome at hends ⊢
  cases hends with
  | missing hmissing =>
    have hnot : ¬∀ r ∈ p.modules, r.name ∈ lock.names := by simpa using hmissing
    exact {
      missing_iff := ⟨fun _ => hmissing, fun _ => ⟨_, rfl⟩⟩
      reasons := fun _ h => by cases h; rfl
      local_iff := ⟨nofun, fun h => absurd h.1 hnot⟩
      first_local := nofun
      unchanged := fun _ _ => rfl
      returns_iff := ⟨nofun, fun h => absurd h.1 hnot⟩
      requests := nofun
      names := nofun
      again := nofun }
  | localModule hlocked hsplit hbefore hlocal =>
    have hexists : ∃ m ∈ lock.modules, m.IsLocal := ⟨_, by simp [hsplit], hlocal⟩
    exact {
      missing_iff := ⟨nofun, fun ⟨r, hr, hnot⟩ => absurd (hlocked r hr) hnot⟩
      reasons := nofun
      local_iff := ⟨fun _ => ⟨hlocked, hexists⟩, fun _ => ⟨_, _, rfl⟩⟩
      first_local := fun _ _ h => by
        cases h
        exact ⟨_, _, _, hsplit, hbefore, hlocal, rfl, rfl⟩
      unchanged := fun _ _ => rfl
      returns_iff := ⟨nofun, fun ⟨_, hremote⟩ => absurd hlocal (hremote _ (by simp [hsplit]))⟩
      requests := nofun
      names := nofun
      again := nofun }
  | torn htears =>
    -- All locked modules have names, so there is none at which pinning could stop.
    obtain ⟨m, rest, hsplit, hname⟩ := htears.unnamed
    have hm : m ∈ extra p lock := by simp [hsplit]
    exact absurd (hname ▸ List.mem_map_of_mem (List.mem_of_mem_filter hm)) hnamed
  | pinned hfits hallNamed =>
    exact {
      missing_iff := ⟨nofun, fun ⟨r, hr, hnot⟩ => absurd (hfits.locked r hr) hnot⟩
      reasons := nofun
      local_iff := ⟨nofun, fun ⟨_, m, hm, hlocal⟩ => absurd hlocal (hfits.remote m hm)⟩
      first_local := nofun
      unchanged := nofun
      returns_iff := ⟨fun _ => ⟨hfits.locked, hfits.remote⟩, fun _ => rfl⟩
      requests := fun _ => ⟨_, _, rfl, forall₂_pin hdistinct hfits, by rw [extra_eq]; rfl⟩
      names := fun _ _ => names_pinned hfits
      again := fun _ => apply_pinned hdistinct hfits }

/-- A project that asks for a module twice, and for another one in the old ways. -/
def mixedProject : Project where
  name := "svc"
  modules := [
    { name := "a", version := ">=0.1.0" },
    { name := "b", channel := "beta", url := "https://b", prerelease := true },
    { name := "a", channel := "rc" }]

def mixedLock : Lockfile where
  modules := [
    { name := "c", url := "https://c", version := "3.0.0" },
    { name := "b", version := "main" },
    { name := "a", url := "https://a", version := "1.0.0" }]

theorem apply_lawful_mixed :
    Lawful mixedProject mixedLock (apply mixedProject (some mixedLock)).1
        (apply mixedProject (some mixedLock)).2 ∧
      (apply mixedProject (some mixedLock)).1.modules = [
        { name := "a", version := "1.0.0" },
        { name := "b", version := "main", url := "https://b" },
        { name := "a", version := "1.0.0" },
        { name := "c", version := "3.0.0" }] :=
  ⟨apply_lawful mixedProject (by decide) (by decide), by decide⟩

end Pinning

end ModulePins
