import ModulePins.Proofs.Frozen

/-!
# Local modules are refused

No project is pinned to a lockfile with a local module: requests that are not locked are reported,
or else the first local module is. The project stays as it is, and a frozen command ends before it
has resolved anything.
-/

namespace ModulePins

namespace Pinning

variable {lock : Lockfile} {m : LockedModule}

/-- What speaks against pinning a project to a lockfile with local modules. -/
inductive Against (p : Project) (lock : Lockfile) : Failure → Prop
  | missing (hmissing : ∃ r ∈ p.modules, r.name ∉ lock.names) :
      Against p lock (.missingFromLock
        ((p.modules.filter fun r => r.name ∉ lock.names).map (missingReason p)))
  | localModule {first : LockedModule} (hlocked : ∀ r ∈ p.modules, r.name ∈ lock.names)
      (hfirst : localModule? lock = some first) :
      Against p lock (.localReplacement first.name first.url)

/-- A lockfile with a local module is refused, and leaves the project as it is. -/
theorem apply_of_local (hm : m ∈ lock.modules) (hlocal : m.IsLocal) (p : Project) :
    ∃ failure, apply p (some lock) = (p, .error failure) ∧ Against p lock failure := by
  have hends := ends_apply p (some lock)
  generalize happly : apply p (some lock) = result at hends
  obtain ⟨after, outcome⟩ := result
  dsimp only at hends
  cases hends with
  | missing hmissing => exact ⟨_, rfl, .missing hmissing⟩
  | localModule hlocked hsplit hbefore hfirst =>
    exact ⟨_, rfl, .localModule hlocked (localModule?_eq_some.mpr ⟨hfirst, _, _, hsplit, hbefore⟩)⟩
  | torn htears => exact absurd hlocal (htears.remote m hm)
  | pinned hfits _ => exact absurd hlocal (hfits.remote m hm)

end Pinning

namespace Command

variable {c : Command} {lock : Lockfile} {project : Project} {failure : Failure}

theorem prepared_refused (hfrozen : c.options.frozen = true) (hlock : c.lock = some lock)
    (happly : Pinning.apply c.wanted (some lock) = (project, .error failure)) :
    c.prepared.outcome = .error failure := by
  rw [outcome_prepared, if_pos hfrozen, hlock, happly]
  rfl

theorem run_of_unprepared {σ : Type} (hprepared : c.prepared.outcome = .error failure)
    (env : Environment) (s : Surroundings) (cache : Cache) (limit : Nat) (inquiry : Gate.Inquiry σ)
    (st : σ) : c.run env s cache limit inquiry st =
      (some { report := { outcome := .error failure, notices := c.prepared.notices } }, st) := by
  unfold Command.run
  simp only [hprepared, bind, Except.bind]
  rfl

end Command

/-- No project is pinned to the lockfile, and a frozen command with it ends without a run. -/
structure Lockfile.IsRefused (lock : Lockfile) : Prop where
  project : ∀ p, ∃ failure, Pinning.apply p (some lock) = (p, .error failure) ∧
    Pinning.Against p lock failure
  command : ∀ c : Command, c.options.frozen = true → c.lock = some lock →
    ∃ failure, Pinning.Against c.wanted lock failure ∧
      ∀ {σ : Type} (env : Environment) (s : Surroundings) (cache : Cache) (limit : Nat)
        (inquiry : Gate.Inquiry σ) (st : σ), c.run env s cache limit inquiry st =
          (some { report := { outcome := .error failure, notices := c.prepared.notices } }, st)

theorem Lockfile.isRefused_of_local {lock : Lockfile} {m : LockedModule} (hm : m ∈ lock.modules)
    (hlocal : m.IsLocal) : lock.IsRefused where
  project := Pinning.apply_of_local hm hlocal
  command := by
    intro c hfrozen hlock
    obtain ⟨failure, happly, hagainst⟩ := Pinning.apply_of_local hm hlocal c.wanted
    exact ⟨failure, hagainst,
      Command.run_of_unprepared (Command.prepared_refused hfrozen hlock happly)⟩

end ModulePins
