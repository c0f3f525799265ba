import ModulePins.Command
import ModulePins.Proofs.Argument.Problems
import ModulePins.Proofs.Sequence

/-!
# Commands that return

A command that returns has been through all of its parts, and each of them has succeeded. The checks
at the end look at every manifest on its own, so they pass for any manifests among those that
passed.
-/

namespace ModulePins

namespace ToolVersion

variable {manifests others : Ledger ModuleManifest} {tool : String}

theorem mem_demands {name required : String} :
    (name, required) ∈ demands manifests ↔
      ∃ manifest, (name, manifest) ∈ manifests.entries ∧
        manifest.toolVersion.filter (· ≠ "") = some required := by
  simp only [demands, List.mem_filterMap, List.mem_mergeSort, Prod.exists, Option.map_eq_some_iff]
  constructor
  · rintro ⟨_, manifest, hentry, _, hrequired, hsame⟩
    obtain ⟨rfl, rfl⟩ := Prod.mk.inj hsame
    exact ⟨manifest, hentry, hrequired⟩
  · rintro ⟨manifest, hentry, hrequired⟩
    exact ⟨name, manifest, hentry, required, hrequired, rfl⟩

theorem check_eq_ok :
    check manifests tool = .ok () ↔ ∃ version, SemVer.read? tool = some version ∧
      ∀ name manifest required, (name, manifest) ∈ manifests.entries →
        manifest.toolVersion.filter (· ≠ "") = some required →
          checkModule tool version name required = .ok () := by
  unfold check
  cases SemVer.read? tool with
  | none => simp
  | some version =>
    simp only [Option.some.injEq, exists_eq_left']
    rw [List.forM_eq_forM, Sequence.forM_eq_ok]
    constructor
    · intro h name manifest required hentry hrequired
      exact h _ (mem_demands.mpr ⟨manifest, hentry, hrequired⟩)
    · rintro h ⟨name, required⟩ hdemand
      obtain ⟨manifest, hentry, hrequired⟩ := mem_demands.mp hdemand
      exact h name manifest required hentry hrequired

theorem check_of_subset (hsub : ∀ entry ∈ others.entries, entry ∈ manifests.entries)
    (h : check manifests tool = .ok ()) : check others tool = .ok () := by
  obtain ⟨version, hread, hall⟩ := check_eq_ok.mp h
  refine check_eq_ok.mpr ⟨version, hread, ?_⟩
  intro name manifest required hentry hrequired
  exact hall name manifest required (hsub _ hentry) hrequired

end ToolVersion

namespace Gate

variable {σ : Type}

theorem check_of_no_upgrade (inquiry : Inquiry σ) {lock : Lockfile} (allowed : Bool)
    (token : Option String) {modules : List PinnedModule}
    (h : ∀ m ∈ modules, Upgrade.ofModule? lock m = none) :
    check inquiry (some lock) allowed token modules = pure (.ok ()) := by
  have hnone : modules.filterMap (Upgrade.ofModule? lock) = [] := by
    rw [List.filterMap_eq_nil_iff]
    exact h
  cases allowed with
  | true =>
    simp [check, hnone]
    rfl
  | false =>
    simp [check, hnone]
    rfl

end Gate

theorem Report.andThen_eq_ok {α β : Type} {report : Report α} {f : α → Report β} {b : β} :
    (report.andThen f).outcome = .ok b ↔
      ∃ a, report.outcome = .ok a ∧ (f a).outcome = .ok b := by
  unfold Report.andThen
  cases report.outcome with
  | error failure => simp
  | ok a => simp

namespace Command

variable {σ : Type} {c : Command} {env : Environment} {s : Surroundings} {cache : Cache}
variable {limit : Nat} {inquiry : Gate.Inquiry σ} {st st' : σ} {p project : Project}
variable {modules : List PinnedModule} {manifests others : Ledger ModuleManifest}
variable {start run : Run} {ending : Ending} {result : Result} {depth : Nat}

theorem exists_argumentsOf :
    (∃ arguments, argumentsOf p manifests depth = .ok arguments) ↔
      ∀ entry ∈ manifests.entries, ∀ declared ∈ entry.2.arguments,
        ¬Argument.Offends p.arguments declared := by
  rw [argumentsOf, Sequence.exists_mapM_eq_ok]
  refine forall₂_congr ?_
  rintro ⟨name, manifest⟩ _
  rw [← Argument.exists_settle p.arguments manifest.arguments name depth]
  cases hsettle : Argument.settle p.arguments manifest.arguments name depth with
  | error failure => simp [hsettle]
  | ok values => simp [hsettle]

theorem concluded_eq_ok :
    (c.concluded p modules manifests depth).outcome = .ok result ↔
      ToolVersion.check manifests c.options.toolVersion = .ok () ∧
        ∃ arguments, argumentsOf p manifests depth = .ok arguments ∧
          result = { modules, manifests, arguments } := by
  unfold concluded
  cases ToolVersion.check manifests c.options.toolVersion with
  | error failure => simp [bind, Except.bind, Report.fail]
  | ok _ =>
    cases argumentsOf p manifests depth with
    | error failure => simp [bind, Except.bind, Report.fail]
    | ok arguments => simp [bind, Except.bind, eq_comm]

theorem concluded_of_subset (c' : Command) {p' : Project} (modules' : List PinnedModule)
    (depth' : Nat)
    (htool : c'.options.toolVersion = c.options.toolVersion) (hsame : p'.arguments = p.arguments)
    (hsub : ∀ entry ∈ others.entries, entry ∈ manifests.entries)
    (h : (c.concluded p modules manifests depth).outcome = .ok result) :
    ∃ result', (c'.concluded p' modules' others depth').outcome = .ok result' ∧
      result'.modules = modules' := by
  obtain ⟨hcheck, arguments, harguments, _⟩ := concluded_eq_ok.mp h
  obtain ⟨arguments', harguments'⟩ : ∃ arguments', argumentsOf p' others depth' = .ok arguments' := by
    rw [exists_argumentsOf, hsame]
    intro entry hentry
    exact exists_argumentsOf.mp ⟨arguments, harguments⟩ entry (hsub entry hentry)
  refine ⟨_, concluded_eq_ok.mpr ⟨?_, arguments', harguments', rfl⟩, rfl⟩
  rw [htool]
  exact ToolVersion.check_of_subset hsub hcheck

/-- A command that returns has prepared its project, come to the end of a run, let the modules of
the run pass the gate, and checked what the run gave. -/
theorem run_returns_gated (h : c.run env s cache limit inquiry st = (some ending, st'))
    (hreturn : ending.report.outcome = .ok result) :
    ∃ project start run gate, c.prepared.outcome = .ok project ∧
      Run.start (.project project) [] 1 cache env.folder = .ok start ∧
      start.finish? s limit = some run ∧ run.outcome = .ok result.modules ∧
      Gate.check inquiry c.lock c.options.allowMajorUpgrades (env.token? c.options.token)
        result.modules st = (gate, st') ∧ gate.outcome = .ok () ∧
      (c.concluded project result.modules run.manifests env.depth).outcome = .ok result := by
  unfold Command.run at h
  cases hprepared : c.prepared.outcome with
  | error failure =>
    simp only [hprepared, bind, Except.bind, pure] at h
    cases h
    cases hreturn
  | ok project =>
    cases hstart : Run.start (.project project) [] 1 cache env.folder with
    | error failure =>
      simp only [hprepared, hstart, bind, Except.bind, pure] at h
      cases h
      cases hreturn
    | ok start =>
      cases hrun : start.finish? s limit with
      | none =>
        simp only [hprepared, hstart, hrun, bind, Except.bind, pure, Except.pure] at h
        cases h
      | some run =>
        cases houtcome : run.outcome with
        | error failure =>
          simp only [hprepared, hstart, hrun, houtcome, bind, Except.bind, pure, Except.pure] at h
          cases h
          cases hreturn
        | ok modules =>
          simp only [hprepared, hstart, hrun, houtcome, bind, Except.bind, pure, Except.pure,
            StateT.bind] at h
          cases h
          obtain ⟨_, hgate, hconcluded⟩ := Report.andThen_eq_ok.mp hreturn
          obtain ⟨_, _, _, rfl⟩ := concluded_eq_ok.mp hconcluded
          exact ⟨project, start, run, _, rfl, hstart, hrun, houtcome, rfl, hgate, hconcluded⟩

theorem run_returns (h : c.run env s cache limit inquiry st = (some ending, st'))
    (hreturn : ending.report.outcome = .ok result) :
    ∃ project start run, c.prepared.outcome = .ok project ∧
      Run.start (.project project) [] 1 cache env.folder = .ok start ∧
      start.finish? s limit = some run ∧ run.outcome = .ok result.modules ∧
      (c.concluded project result.modules run.manifests env.depth).outcome = .ok result := by
  obtain ⟨project, start, run, _, hprepared, hstart, hrun, houtcome, _, _, hconcluded⟩ :=
    run_returns_gated h hreturn
  exact ⟨project, start, run, hprepared, hstart, hrun, houtcome, hconcluded⟩

/-- A command returns if it has prepared its project, come to the end of a run, let the modules of
the run pass the gate, and checked what the run gave. -/
theorem returns_of_gate {gate : Report Unit} (hprepared : c.prepared.outcome = .ok project)
    (hstart : Run.start (.project project) [] 1 cache env.folder = .ok start)
    (hrun : start.finish? s limit = some run) (houtcome : run.outcome = .ok modules)
    (hgate : Gate.check inquiry c.lock c.options.allowMajorUpgrades (env.token? c.options.token)
      modules st = (gate, st')) (hpassed : gate.outcome = .ok ())
    (hconcluded : (c.concluded project modules run.manifests env.depth).outcome = .ok result) :
    ∃ ending, c.run env s cache limit inquiry st = (some ending, st') ∧
      ending.report.outcome = .ok result := by
  let report := gate.andThen fun () => c.concluded project modules run.manifests env.depth
  let notices := c.prepared.notices ++ run.notices ++ report.notices
  refine ⟨{ run := some run, report := { report with notices } }, ?_,
    Report.andThen_eq_ok.mpr ⟨(), hpassed, hconcluded⟩⟩
  unfold Command.run
  simp only [hprepared, hstart, hrun, houtcome, hgate, bind, Except.bind, pure, Except.pure,
    StateT.bind]
  rfl

/-- The ending of a command whose run gave `modules`, all of which may pass the gate. -/
def passed (c : Command) (p : Project) (run : Run) (modules : List PinnedModule) (depth : Nat) :
    Ending where
  run := some run
  report :=
    { c.concluded p modules run.manifests depth with
      notices := c.prepared.notices ++ run.notices ++
        (c.concluded p modules run.manifests depth).notices }

theorem run_of_pass (hprepared : c.prepared.outcome = .ok project)
    (hstart : Run.start (.project project) [] 1 cache env.folder = .ok start)
    (hrun : start.finish? s limit = some run) (houtcome : run.outcome = .ok modules)
    (hgate : Gate.check inquiry c.lock c.options.allowMajorUpgrades (env.token? c.options.token)
      modules = pure (.ok ())) :
    c.run env s cache limit inquiry st = (some (c.passed project run modules env.depth), st) := by
  unfold Command.run
  simp only [hprepared, hstart, hrun, houtcome, hgate, bind, Except.bind, pure, Except.pure,
    StateT.bind]
  rfl

end Command

end ModulePins
