import ModulePins.Proofs.Argument
import ModulePins.Proofs.Frozen
import ModulePins.Proofs.Gate
import ModulePins.Proofs.Resolution.Recorded

/-!
# Accepted results

A result that a command returns is checked throughout. Every module of it has a manifest and values
for its arguments, every manifest takes the tool as it is, all values are accepted, and no module
has a new major version that nobody consented to.
-/

namespace ModulePins

namespace Gate

variable {σ : Type} {inquiry : Inquiry σ} {token : Option String} {st st' : σ}

/-- Upgrades that were confirmed one after the other: each time somebody was there to be asked, was
shown the notes, and said yes. -/
inductive Confirmed (inquiry : Inquiry σ) (token : Option String) :
    List Upgrade → σ → σ → Prop where
  | none (st : σ) : Confirmed inquiry token [] st st
  | next {u : Upgrade} {rest : List Upgrade} {st present told answered st' : σ}
      {notes : Except Failure String} {text : String}
      (hpresent : inquiry.isInteractive st = (true, present))
      (hnotes : inquiry.fetchNotes u.pinned.name u.toVersion token present = (notes, told))
      (hshown : (shownNotes u.pinned notes).outcome = .ok text)
      (hanswer : inquiry.confirm u.pinned.name u.fromVersion u.toVersion text told =
        (.ok true, answered))
      (hrest : Confirmed inquiry token rest answered st') :
      Confirmed inquiry token (u :: rest) st st'

theorem judge_eq_ok {u : Upgrade} {answer : Except Failure Bool} :
    judge u answer = .ok () ↔ answer = .ok true := by
  cases answer with
  | error failure => simp [judge]
  | ok yes => cases yes <;> simp [judge]

theorem askFor_ok {u : Upgrade} {report : Report Unit}
    (h : askFor inquiry token u st = (report, st')) (hok : report.outcome = .ok ()) :
    ∃ present notes told text, inquiry.isInteractive st = (true, present) ∧
      inquiry.fetchNotes u.pinned.name u.toVersion token present = (notes, told) ∧
      (shownNotes u.pinned notes).outcome = .ok text ∧
      inquiry.confirm u.pinned.name u.fromVersion u.toVersion text told = (.ok true, st') := by
  unfold askFor at h
  rcases hpresent : inquiry.isInteractive st with ⟨interactive, present⟩
  cases interactive with
  | false =>
    simp [bind, StateT.bind, pure, StateT.pure, hpresent] at h
    obtain ⟨rfl, _⟩ := h
    cases hok
  | true =>
    rcases hnotes : inquiry.fetchNotes u.pinned.name u.toVersion token present with ⟨notes, told⟩
    cases hshown : (shownNotes u.pinned notes).outcome with
    | error failure =>
      simp [bind, StateT.bind, pure, StateT.pure, hpresent, hnotes, hshown] at h
      obtain ⟨rfl, _⟩ := h
      cases hok
    | ok text =>
      rcases hanswer : inquiry.confirm u.pinned.name u.fromVersion u.toVersion text told with
        ⟨answer, answered⟩
      simp [bind, StateT.bind, pure, StateT.pure, hpresent, hnotes, hshown, hanswer] at h
      obtain ⟨rfl, rfl⟩ := h
      obtain rfl := judge_eq_ok.mp hok
      exact ⟨present, notes, told, text, rfl, hnotes, hshown, hanswer⟩

theorem confirmed_of_askForAll {upgrades : List Upgrade} {report : Report Unit}
    (h : askForAll inquiry token upgrades st = (report, st')) (hok : report.outcome = .ok ()) :
    Confirmed inquiry token upgrades st st' := by
  induction upgrades generalizing st report with
  | nil =>
    cases h
    exact .none _
  | cons u rest ih =>
    rcases hfirst : askFor inquiry token u st with ⟨first, answered⟩
    cases houtcome : first.outcome with
    | error failure =>
      simp [askForAll, bind, StateT.bind, pure, StateT.pure, hfirst, houtcome] at h
      obtain ⟨rfl, _⟩ := h
      rw [houtcome] at hok
      cases hok
    | ok _ =>
      rcases hothers : askForAll inquiry token rest answered with ⟨others, last⟩
      simp [askForAll, bind, StateT.bind, pure, StateT.pure, hfirst, houtcome, hothers] at h
      obtain ⟨rfl, rfl⟩ := h
      obtain ⟨_, _, _, _, hpresent, hnotes, hshown, hanswer⟩ := askFor_ok hfirst houtcome
      exact .next hpresent hnotes hshown hanswer (ih hothers hok)

theorem confirmed_of_check {lock : Lockfile} {allowed : Bool} {modules : List PinnedModule}
    {report : Report Unit} (h : check inquiry (some lock) allowed token modules st = (report, st'))
    (hok : report.outcome = .ok ()) :
    allowed = true ∨
      Confirmed inquiry token (modules.filterMap (Upgrade.ofModule? lock)) st st' := by
  cases allowed with
  | true => exact .inl rfl
  | false => exact .inr (confirmed_of_askForAll h hok)

end Gate

theorem ToolVersion.checkModule_eq_ok {tool name required : String} {version : SemVer} :
    checkModule tool version name required = .ok () ↔
      ∃ constraint, Constraint.read required = .ok constraint ∧
        constraint.admits version = true := by
  unfold checkModule
  cases Constraint.read required with
  | error fault => cases fault <;> simp
  | ok constraint => by_cases h : constraint.admits version = true <;> simp [h]

namespace Pinning

theorem arguments_addAll (locked : List LockedModule) (p : Project) :
    (addAll locked p).1.arguments = p.arguments := by
  induction locked generalizing p with
  | nil => rfl
  | cons m rest ih =>
    unfold addAll
    split
    · rfl
    · rw [ih]

theorem arguments_apply (p : Project) (lock : Option Lockfile) :
    (apply p lock).1.arguments = p.arguments := by
  unfold apply
  split
  · rfl
  · split
    · rfl
    · split
      · rfl
      · rw [arguments_addAll]

end Pinning

namespace Command

variable {σ : Type} {c : Command} {env : Environment} {s : Surroundings} {cache : Cache}
variable {limit : Nat} {inquiry : Gate.Inquiry σ} {st st' : σ} {p project : Project}
variable {manifests : Ledger ModuleManifest} {ending : Ending} {result : Result} {depth : Nat}

theorem prepared_arguments (h : c.prepared.outcome = .ok project) :
    project.arguments = c.project.arguments := by
  rw [outcome_prepared] at h
  split at h
  · cases hpinned : (Pinning.apply c.wanted c.lock).2 with
    | error failure => simp [hpinned, Except.map] at h
    | ok _ =>
      obtain rfl : (Pinning.apply c.wanted c.lock).1 = project := by
        simpa [hpinned, Except.map] using h
      rw [Pinning.arguments_apply, wanted_arguments]
  · obtain rfl : c.wanted = project := by simpa using h
    exact wanted_arguments c

/-- The values of arguments are kept by the names of the manifests, and are those settled there. -/
theorem resolve_of_argumentsOf {arguments : List (String × List (String × Value))}
    (h : argumentsOf p manifests depth = .ok arguments) :
    arguments.map Prod.fst = manifests.names ∧
      ∀ name manifest, manifests.get? name = some manifest → ∃ values,
        arguments.lookup name = some values ∧
          Argument.resolve p.arguments manifest.arguments depth = .ok values := by
  obtain ⟨entries⟩ := manifests
  unfold argumentsOf at h
  unfold Ledger.names Ledger.get?
  dsimp only at h ⊢
  induction entries generalizing arguments with
  | nil =>
    cases h
    exact ⟨rfl, fun _ _ hget => by cases hget⟩
  | cons entry entries ih =>
    obtain ⟨first, manifest⟩ := entry
    obtain ⟨given, rest, hfirst, hrest, rfl⟩ := Sequence.mapM_cons_eq_ok.mp h
    obtain ⟨hnames, hothers⟩ := ih hrest
    cases hsettle : Argument.settle p.arguments manifest.arguments first depth with
    | error failure => simp [hsettle] at hfirst
    | ok values =>
      obtain rfl : (first, values) = given := by simpa [hsettle] using hfirst
      refine ⟨by rw [List.map_cons, List.map_cons, hnames], ?_⟩
      intro name found hget
      by_cases hname : name = first
      · subst hname
        obtain rfl : manifest = found := by simpa using hget
        exact ⟨values, by simp, Argument.settle_eq_ok.mp hsettle⟩
      · have hbeq : (name == first) = false := by simpa using hname
        rw [List.lookup_cons, hbeq] at hget ⊢
        exact hothers name found hget

/-- What holds of a result that a command returned, in terms of the state behind the questions
before the command and after it. -/
structure Result.Accepted (c : Command) (env : Environment) (inquiry : Gate.Inquiry σ) (st st' : σ)
    (result : Result) : Prop where
  distinct : result.manifests.names.Nodup
  recorded : ∀ name, name ∈ result.manifests.names ↔ name ∈ result.modules.map PinnedModule.name
  given : result.arguments.map Prod.fst = result.manifests.names
  tool : ∃ version, SemVer.read? c.options.toolVersion = some version ∧
    ∀ name manifest required, result.manifests.get? name = some manifest →
      manifest.toolVersion = some required → required ≠ "" →
      ∃ constraint, Constraint.read required = .ok constraint ∧ constraint.admits version = true
  settled : ∀ m ∈ result.modules, ∃ manifest values,
    result.manifests.get? m.name = some manifest ∧ result.arguments.lookup m.name = some values ∧
      Argument.Settled c.project.arguments manifest.arguments values
  upgraded : ∀ lock, c.lock = some lock → ∀ m ∈ result.modules, ∀ locked v w,
    lock.module? m.name = some locked → SemVer.read? locked.version = some v →
      SemVer.read? m.version = some w → v.major < w.major →
      c.options.allowMajorUpgrades = true ∨ ∃ upgrades,
        Gate.Confirmed inquiry (env.token? c.options.token) upgrades st st' ∧
          { pinned := m, fromVersion := locked.version } ∈ upgrades

/-- Every result that a command returns is accepted, whatever the project, its lockfile, the
options, the cache and the surroundings, as long as the store serves manifests as they are read. -/
theorem accepted_of_returns
    (hserved : ∀ before fetch manifest, (s.manifests before fetch).outcome = .ok manifest →
      manifest.IsSound)
    (hrun : c.run env s cache limit inquiry st = (some ending, st'))
    (hreturn : ending.report.outcome = .ok result) : result.Accepted c env inquiry st st' := by
  obtain ⟨project, start, run, gate, hprepared, hstart, hfinish, houtcome, hgate, hpassed,
    hconcluded⟩ := run_returns_gated hrun hreturn
  obtain ⟨htool, arguments, harguments, hresult⟩ := concluded_eq_ok.mp hconcluded
  obtain ⟨hdistinct, hrecorded, hsource⟩ := Run.recorded_of_outcome hstart hfinish houtcome
  obtain ⟨hgiven, hresolved⟩ := resolve_of_argumentsOf harguments
  have hmanifests : result.manifests = run.manifests := by rw [hresult]
  have hvalues : result.arguments = arguments := by rw [hresult]
  -- Everything was checked for the manifests of the run, which are those of the result.
  rw [← hmanifests] at htool hdistinct hrecorded hsource hgiven hresolved
  rw [← hvalues] at hgiven hresolved
  refine ⟨hdistinct, hrecorded, hgiven, ?_, ?_, ?_⟩
  · obtain ⟨version, hread, hdemands⟩ := ToolVersion.check_eq_ok.mp htool
    refine ⟨version, hread, ?_⟩
    intro name manifest required hget hrequired hne
    apply ToolVersion.checkModule_eq_ok.mp
    apply hdemands name manifest required (Ledger.mem_entries_of_get? hget)
    simp [hrequired, hne]
  · intro m hm
    obtain ⟨manifest, hget⟩ :=
      (Ledger.mem_names _ _).mp ((hrecorded m.name).mpr (List.mem_map_of_mem hm))
    obtain ⟨values, hlookup, hresolve⟩ := hresolved m.name manifest hget
    obtain ⟨before, fetch, houtcome⟩ := hsource _ (Ledger.mem_entries_of_get? hget)
    have hsound := hserved before fetch manifest houtcome
    rw [prepared_arguments hprepared] at hresolve
    exact ⟨manifest, values, hget, hlookup,
      Argument.settled_of_resolve hsound.distinct hsound.defaults hresolve⟩
  · intro lock hlock m hm locked v w hlocked hold hnew hmajor
    rw [hlock] at hgate
    rcases Gate.confirmed_of_check hgate hpassed with hallowed | hconfirmed
    · exact .inl hallowed
    · exact .inr ⟨_, hconfirmed, List.mem_filterMap.mpr
        ⟨m, hm, Upgrade.ofModule?_eq_some hlocked hold hnew hmajor⟩⟩

/-- Two modules with arguments; `a` asks for a tool that is not too old. -/
def serverShelf : Shelf where
  items := [
    { uri := "https://a"
      manifest :=
        { name := "a"
          modules := [{ name := "b" }]
          arguments := [
            ("port", { kind := .integer, default := .int 80 }),
            ("region", { required := true, values := ["eu", "us"] })]
          toolVersion := some ">=0.4.0" } },
    { uri := "https://b"
      manifest := { name := "b", arguments := [("port", { kind := .integer })] } }]

def serverTags : Registry where
  tags := [("https://a", ["1.0.0", "2.0.0"]), ("https://b", ["0.1.0"])]

def serverCommand : Command where
  project :=
    { name := "svc", modules := [{ name := "a" }], arguments := [("region", .text "eu")] }
  lock := some
    { version := "0.4.0", modules := [{ name := "a", url := "https://a", version := "1.0.0" }] }

/-- Somebody who says yes to everything, and counts the questions. -/
def consent : Gate.Inquiry Nat where
  isInteractive := return true
  fetchNotes _ _ _ := return .ok "Notes"
  confirm _ _ _ _ := fun asked => (.ok true, asked + 1)

def serverModules : List PinnedModule :=
  [{ name := "a", uri := "https://a", version := "2.0.0" },
    { name := "b", uri := "https://b", version := "0.1.0" }]

theorem isSound_serverShelf (before : List Fetch) (fetch : Fetch) (manifest : ModuleManifest)
    (h : (serverShelf.store before fetch).outcome = .ok manifest) : manifest.IsSound := by
  have hitems : ∀ item ∈ serverShelf.items,
      (item.manifest.arguments.map Prod.fst).Nodup ∧
        ∀ entry ∈ item.manifest.arguments, entry.2.default.isNull = true ∨
          entry.2.accepts entry.2.default = true := by decide +kernel
  obtain ⟨item, hmem, rfl⟩ := Shelf.exists_item_of_manifest h
  exact ⟨(hitems item hmem).1, (hitems item hmem).2⟩

/-- Each step takes a second. -/
def serverSurroundings : Surroundings :=
  .inMemory serverTags none serverShelf 0 fun n => n + 1

theorem server_resolves : ∃ run,
    Run.finish? serverSurroundings 10
        { agenda := .start (Goal.project serverCommand.project).tasks [] []
          cache := { root := "/cache" } } = some run ∧
      run.outcome = .ok serverModules ∧
      ∀ entry ∈ run.manifests.entries, entry.2.toolVersion ∈ [none, some ">=0.4.0"] ∧
        ∀ declared ∈ entry.2.arguments,
          ¬Argument.Offends serverCommand.project.arguments declared := by
  obtain ⟨run, hrun, hmodules, hentries⟩ : ∃ run,
      Run.finish? serverSurroundings 10
          { agenda := .start (Goal.project serverCommand.project).tasks [] []
            cache := { root := "/cache" } } = some run ∧
        run.outcome.toOption = some serverModules ∧
        ∀ entry ∈ run.manifests.entries, entry.2.toolVersion ∈ [none, some ">=0.4.0"] ∧
          ∀ declared ∈ entry.2.arguments,
            ¬Argument.Offends serverCommand.project.arguments declared := by
    apply Run.exists_of_any
    decide +kernel
  exact ⟨run, hrun, Run.ok_of_toOption hmodules, hentries⟩

theorem server_returns : ∃ ending result,
    serverCommand.run {} serverSurroundings { root := "/cache" } 10 consent 0 = (some ending, 1) ∧
      ending.report.outcome = .ok result ∧ result.modules = serverModules := by
  obtain ⟨run, hrun, houtcome, hentries⟩ := server_resolves
  have hcheck : ToolVersion.check run.manifests "0.4.0" = .ok () := by
    refine ToolVersion.check_eq_ok.mpr ⟨.release 0 4 0, by decide +kernel, ?_⟩
    intro name manifest required hentry hrequired
    have htool : manifest.toolVersion = none ∨ manifest.toolVersion = some ">=0.4.0" := by
      simpa using (hentries _ hentry).1
    rcases htool with hnone | hsome
    · simp [hnone] at hrequired
    · have hsame : ">=0.4.0" = required ∧ required ≠ "" := by simpa [hsome] using hrequired
      rw [← hsame.1]
      rfl
  obtain ⟨arguments, harguments⟩ :
      ∃ arguments, argumentsOf serverCommand.project run.manifests Nesting.limit = .ok arguments :=
    exists_argumentsOf.mpr fun entry hentry => (hentries entry hentry).2
  have hconcluded : (serverCommand.concluded serverCommand.project serverModules run.manifests
      Nesting.limit).outcome = .ok { modules := serverModules, manifests := run.manifests, arguments } :=
    concluded_eq_ok.mpr ⟨hcheck, arguments, harguments, rfl⟩
  have hgate : Gate.check consent serverCommand.lock false none serverModules 0 =
      ((Gate.check consent serverCommand.lock false none serverModules 0).1, 1) := rfl
  have hprepared : serverCommand.prepared.outcome = .ok serverCommand.project := rfl
  have hstart : Run.start (.project serverCommand.project) [] 1 { root := "/cache" }
      ({} : Environment).folder = .ok
        { agenda := .start (Goal.project serverCommand.project).tasks [] []
          cache := { root := "/cache" } } :=
    Run.start_project _ _ _
  obtain ⟨ending, hending, hreturn⟩ :=
    returns_of_gate hprepared hstart hrun houtcome hgate rfl hconcluded
  exact ⟨ending, _, hending, hreturn, rfl⟩

/-- The upgrade of `a` from its locked version was confirmed once. -/
theorem accepted_server : ∃ result : Result, result.modules = serverModules ∧
    result.Accepted serverCommand {} consent 0 1 := by
  obtain ⟨ending, result, hrun, hreturn, hmodules⟩ := server_returns
  exact ⟨result, hmodules, accepted_of_returns isSound_serverShelf hrun hreturn⟩

end Command

end ModulePins
