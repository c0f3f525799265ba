import ModulePins.Proofs.Command
import ModulePins.Proofs.Lockfile.RoundTrip
import ModulePins.Proofs.Pinning.Outcome
import ModulePins.Proofs.Resolution.Replay

/-!
# Frozen runs

A project that is run, locked and run again in a frozen way gets the same modules, even if the
registry has got new tags in between. The lockfile pins every module of the result, the second run
is a replay, and as no version went up nobody is asked for consent.
-/

namespace ModulePins

namespace Upgrade

theorem isMajor_self (version : String) : isMajor version version = false := by
  unfold isMajor
  cases SemVer.read? version with
  | none => rfl
  | some v => simp

theorem ofModule?_of_locked {lock : Lockfile} {m : PinnedModule}
    (hnodup : (lock.modules.map LockedModule.name).Nodup)
    (hm : LockedModule.ofPinned m ∈ lock.modules) : ofModule? lock m = none := by
  have hfound : lock.module? m.name = some (.ofPinned m) := Pinning.find?_name hnodup hm
  simp [ofModule?, hfound, LockedModule.ofPinned, isMajor_self]

end Upgrade

namespace Command

variable {c : Command} {lock : Lockfile} {project : Project}

/-- The project of a command, on the channels that the options want. -/
def wanted (c : Command) : Project :=
  if c.options.usePrerelease then c.project.usePrerelease else c.project

theorem wanted_names (c : Command) :
    c.wanted.modules.map Requirement.name = c.project.modules.map Requirement.name := by
  unfold wanted
  split
  · simp [Project.usePrerelease]
  · rfl

theorem wanted_replacements (c : Command) : c.wanted.replacements = c.project.replacements := by
  unfold wanted
  split <;> rfl

theorem wanted_arguments (c : Command) : c.wanted.arguments = c.project.arguments := by
  unfold wanted
  split <;> rfl

theorem outcome_prepared (c : Command) :
    c.prepared.outcome =
      if c.options.frozen then
        (Pinning.apply c.wanted c.lock).2.map fun () => (Pinning.apply c.wanted c.lock).1
      else .ok c.wanted := by
  unfold prepared wanted
  cases c.options.usePrerelease <;> cases c.options.frozen <;> rfl

theorem prepared_unlocked (hlock : c.lock = none) (h : c.prepared.outcome = .ok project) :
    project = c.wanted := by
  rw [outcome_prepared, hlock] at h
  split at h
  · cases h
  · exact (Except.ok.inj h).symm

theorem prepared_frozen (hfrozen : c.options.frozen = true) (hlock : c.lock = some lock)
    (happly : Pinning.apply c.wanted (some lock) = (project, .ok ())) :
    c.prepared.outcome = .ok project := by
  rw [outcome_prepared, if_pos hfrozen, hlock, happly]
  rfl

end Command

namespace Run

variable {registry : Registry} {shelf : Shelf} {now : Int} {later : Nat → Int}
  {asked : String → History}
variable {modules : List PinnedModule} {requirements : List Requirement} {cache : Cache}

theorem start_project (p : Project) (cache : Cache) (base : Path) :
    Run.start (.project p) [] 1 cache base =
      .ok { agenda := .start (Goal.project p).tasks p.replacements [] base, cache } :=
  rfl

/-- Requests that name the same modules as others, and ask for the same channels or for none, have
their picks kept in the same places. -/
theorem mem_places_of_renewed {tasks tasks' : List Task} {others : List Requirement}
    (h : ∀ q ∈ others, q ∈ requirements ∨
      (∃ q' ∈ requirements, q'.name = q.name) ∧ (q.wish?.map Prod.snd).getD "" = "") :
    ∀ place ∈ (Agenda.start tasks' [] []).places others,
      place ∈ (Agenda.start tasks [] []).places requirements := by
  intro place hplace
  obtain ⟨q, hq, hplace⟩ := List.mem_flatMap.mp hplace
  rcases h q hq with hq | ⟨⟨q', hq', hname⟩, hwish⟩
  · exact List.mem_flatMap.mpr ⟨q, hq, hplace⟩
  · refine List.mem_flatMap.mpr ⟨q', hq', ?_⟩
    rw [Agenda.uriOf_start, hwish, ← hname] at hplace
    have hplace : place = ("https://" ++ q'.name, "") := by simpa using hplace
    rw [hplace, Agenda.uriOf_start]
    exact List.mem_cons_self

/-- A run whose first requests are exactly for the modules of a result replays the result. -/
theorem replay_locked {tasks tasks' : List Task} (hplain : registry.IsPlain)
    (hcache : cache.IsEmpty) (hrep : Replayable registry shelf asked modules)
    (hreadable : ∀ q ∈ requirements, q.isReadable = true)
    (hshelf : ∀ q ∈ shelf.requirements, q ∈ requirements)
    (hnamed : ∀ m ∈ modules, ∃ q ∈ requirements, q.name = m.name)
    (hapart : Cache.KeysApart ((Agenda.start tasks [] []).places requirements))
    (hpins : ∀ task ∈ tasks', ∃ m ∈ modules, task.requirement.Pins (.ofPinned m))
    (hall : ∀ m ∈ modules, ∃ task ∈ tasks', task.requirement.Pins (.ofPinned m)) :
    ∃ limit ended, finish? (.inMemory registry none shelf now later) limit
        { agenda := .start tasks' [] [], cache } = some ended ∧
      ended.outcome = .ok ended.agenda.resolved ∧
      ended.agenda.resolved.Perm modules ∧ ∀ entry ∈ ended.manifests.entries, ∃ m ∈ modules,
        m.name = entry.1 ∧ shelf.manifest m.uri m.version = .ok entry.2 := by
  have htask : ∀ {task : Task} {m : PinnedModule}, m ∈ modules →
      task.requirement.Pins (.ofPinned m) → task.Pins m :=
    fun hm h => hrep.pins_of_version hplain hm h.name h.version h.channel
  have hsteady : (Surroundings.inMemory registry none shelf now later).Steady
      (tasks'.map Task.requirement ++ shelf.requirements) :=
    Surroundings.steady_inMemory (fun _ hq => List.mem_append_right _ hq) (by simp)
  refine replay_returns hsteady hplain hcache ?_ ?_ (hapart.mono ?_) rfl hrep ?_ ?_
  · intro q hq
    rcases List.mem_append.mp hq with hq | hq
    · obtain ⟨task, ht, rfl⟩ := List.mem_map.mp hq
      obtain ⟨m, hm, hpin⟩ := hpins task ht
      have hversion : task.requirement.version = m.version := hpin.version
      rw [Requirement.isReadable, hversion, hrep.isConstraint_version hplain hm]
    · exact hreadable q (hshelf q hq)
  · intro task ht
    exact List.mem_append_left _ (List.mem_map_of_mem ht)
  · apply mem_places_of_renewed
    intro q hq
    rcases List.mem_append.mp hq with hq | hq
    · right
      obtain ⟨task, ht, rfl⟩ := List.mem_map.mp hq
      obtain ⟨m, hm, hpin⟩ := hpins task ht
      obtain ⟨hname, d, hdemand, hd⟩ := htask hm hpin
      obtain ⟨q', hq', hname'⟩ := hnamed m hm
      refine ⟨⟨q', hq', hname'.trans hname.symm⟩, ?_⟩
      simp [wish?_of_demand hdemand, Demand.wish, hd.channel]
    · exact .inl (hshelf q hq)
  · intro task ht
    obtain ⟨m, hm, hpin⟩ := hpins task ht
    exact ⟨m, hm, htask hm hpin⟩
  · intro m hm
    obtain ⟨task, ht, hpin⟩ := hall m hm
    exact ⟨task, ht, htask hm hpin⟩

theorem Closed.mem_manifests {r : Run} {wanted : List Task} {m : PinnedModule}
    {manifest : ModuleManifest} (hr : r.Closed (.inMemory registry none shelf now later) wanted)
    (hm : m ∈ r.agenda.resolved) (hserved : shelf.manifest m.uri m.version = .ok manifest) :
    (m.name, manifest) ∈ r.manifests.entries := by
  obtain ⟨_, manifest', hmet⟩ := hr.met_of_mem_resolved hm
  obtain ⟨_, hserved'⟩ := hmet.served
  have hsame : manifest' = manifest := Except.ok.inj (hserved'.symm.trans hserved)
  rw [← hsame]
  exact Ledger.mem_entries_of_get? hmet.recorded

/-- What a run for a project leaves to a later one: a result that can be replayed, that has all
modules of the project and only modules that are required somewhere, and manifests for it. -/
structure Leaves (registry : Registry) (shelf : Shelf) (project : Project)
    (asked : String → History) (modules : List PinnedModule)
    (manifests : Ledger ModuleManifest) : Prop where
  replayable : Replayable registry shelf asked modules
  named : ∀ m ∈ modules, ∃ q ∈ (Goal.project project).requirements shelf, q.name = m.name
  covered : ∀ q ∈ project.modules, ∃ m ∈ modules, m.name = q.name
  kept : ∀ m ∈ modules, ∀ manifest, shelf.manifest m.uri m.version = .ok manifest →
    (m.name, manifest) ∈ manifests.entries

theorem leaves_of_outcome {project : Project} {start run : Run} {base : Path} {limit : Nat}
    (hplain : registry.IsPlain) (hcache : cache.IsEmpty) (hreplacements : project.replacements = [])
    (hreadable : ∀ q ∈ (Goal.project project).requirements shelf, q.isReadable = true)
    (hapart : Cache.KeysApart ((Agenda.start (Goal.project project).tasks [] []).places
      ((Goal.project project).requirements shelf)))
    (hstart : Run.start (.project project) [] 1 cache base = .ok start)
    (hrun : finish? (.inMemory registry none shelf now later) limit start = some run)
    (hreturn : run.outcome = .ok modules) :
    Leaves registry shelf project run.agenda.history modules run.manifests := by
  obtain ⟨⟨_, hreach⟩, hidle⟩ := reachable_of_finish? hrun
  obtain ⟨hfailure, rfl⟩ := outcome_ok hreturn
  rw [start_project, hreplacements, Except.ok.injEq] at hstart
  -- Without replacements the working folder does not matter.
  have hstart : start = { agenda := .start (Goal.project project).tasks [] [], cache } := hstart.symm
  have hsteady : (Surroundings.inMemory registry none shelf now later).Steady
      ((Goal.project project).requirements shelf) :=
    Surroundings.steady_inMemory (fun _ hq => List.mem_append_right _ hq)
      (by simp [Goal.requirements])
  have htasks : ∀ task ∈ (Goal.project project).tasks,
      task.requirement ∈ (Goal.project project).requirements shelf :=
    fun _ ht => List.mem_append_left _ (List.mem_map_of_mem ht)
  have hclosed := closed_of_readable hsteady hplain hcache hreadable htasks hapart hstart hreach
    hfailure
  have hdone := tasks_eq_nil_of_idle hidle hfailure hclosed.workers
  refine ⟨?_, ?_, ?_, ?_⟩
  · exact replayable_resolved hsteady hplain hcache hreadable htasks hapart hstart hreach
      hfailure hdone
  · intro m hm
    exact named_of_mem_resolved hsteady hplain hcache htasks hapart hstart hreach hfailure hm
  · intro q hq
    have hmet := ((hclosed.wanted _ (List.mem_map_of_mem hq)).noted hdone).1
    rw [← hclosed.map_name_resolved] at hmet
    exact List.mem_map.mp hmet
  · intro m hm manifest hserved
    exact hclosed.mem_manifests hm hserved

theorem Leaves.apply_eq {project p : Project} {manifests : Ledger ModuleManifest} {lock : Lockfile}
    {tool : String} (h : Leaves registry shelf project asked modules manifests)
    (hnamed : ∀ q ∈ shelf.requirements, q.name ≠ "")
    (hnames : p.modules.map Requirement.name = project.modules.map Requirement.name)
    (hlock : lock.modules = (Lockfile.ofModules tool modules).modules) :
    (∀ q ∈ p.modules, Pinning.isLocked lock q.name = true) ∧
      Pinning.apply p (some lock) = (Pinning.pinned p lock, .ok ()) := by
  have hlocked : ∀ q ∈ p.modules, Pinning.isLocked lock q.name = true := by
    intro q hq
    have hname : q.name ∈ project.modules.map Requirement.name :=
      hnames ▸ List.mem_map_of_mem hq
    obtain ⟨asked, hasked, hname⟩ := List.mem_map.mp hname
    obtain ⟨m, hm, hown⟩ := h.covered asked hasked
    refine Pinning.isLocked_iff.mpr ⟨.ofPinned m, ?_, hown.trans hname⟩
    rw [hlock]
    exact Lockfile.mem_ofModules.mpr ⟨m, hm, rfl⟩
  have hremote : ∀ locked ∈ lock.modules, ¬locked.IsLocal := by
    rintro locked hmem ⟨_, hlocal⟩
    rw [hlock] at hmem
    obtain ⟨m, hm, rfl⟩ := Lockfile.mem_ofModules.mp hmem
    rw [LockedModule.ofPinned, h.replayable.located m hm, Location.isLocal_https] at hlocal
    cases hlocal
  have hfits : Pinning.Fits p lock :=
    ⟨fun q hq => Pinning.isLocked_iff_mem_names.mp (hlocked q hq), hremote⟩
  refine ⟨hlocked, hfits.apply_eq ?_⟩
  intro locked hmem
  obtain ⟨hmem, hextra⟩ := List.mem_filter.mp hmem
  rw [hlock] at hmem
  obtain ⟨m, hm, rfl⟩ := Lockfile.mem_ofModules.mp hmem
  obtain ⟨q, hq, hname⟩ := h.named m hm
  change m.name ≠ ""
  rw [← hname]
  rcases List.mem_append.mp hq with hq | hq
  · -- A module that the project lists needs no request of its own.
    rw [Goal.tasks, List.map_map] at hq
    have hlisted : m.name ∈ p.modules.map Requirement.name := by
      rw [hnames, ← hname]
      simpa using List.mem_map_of_mem (f := Requirement.name) hq
    obtain ⟨asked, hasked, hsame⟩ := List.mem_map.mp hlisted
    exact absurd hsame (of_decide_eq_true (List.all_eq_true.mp hextra asked hasked))
  · exact hnamed q hq

end Run

/-- The first requests of the pinned project are exactly for the modules of the result. -/
theorem pins_of_pinned {p : Project} {modules : List PinnedModule} {lock : Lockfile} {tool : String}
    (hlock : lock.modules = (Lockfile.ofModules tool modules).modules)
    (hnodup : (lock.modules.map LockedModule.name).Nodup)
    (hlocked : ∀ q ∈ p.modules, Pinning.isLocked lock q.name = true) :
    (∀ task ∈ (Goal.project (Pinning.pinned p lock)).tasks,
      ∃ m ∈ modules, task.requirement.Pins (.ofPinned m)) ∧
      ∀ m ∈ modules, ∃ task ∈ (Goal.project (Pinning.pinned p lock)).tasks,
        task.requirement.Pins (.ofPinned m) := by
  constructor
  · intro task ht
    obtain ⟨q, hq, rfl⟩ := List.mem_map.mp ht
    obtain ⟨locked, hmem, hpins⟩ := Pinning.pins_of_mem hnodup hlocked hq
    rw [hlock] at hmem
    obtain ⟨m, hm, rfl⟩ := Lockfile.mem_ofModules.mp hmem
    exact ⟨m, hm, hpins⟩
  · intro m hm
    have hmem : LockedModule.ofPinned m ∈ lock.modules :=
      hlock ▸ Lockfile.mem_ofModules.mpr ⟨m, hm, rfl⟩
    obtain ⟨q, hq, hpins⟩ := Pinning.exists_pins p hnodup hmem
    exact ⟨_, List.mem_map_of_mem hq, hpins⟩

namespace Command

/-- What a command without a lockfile leaves, a frozen one on its locked modules returns. -/
theorem frozen_of_leaves {c : Command} {options : Options} {lock : Lockfile}
    {env env' : Environment}
    {registry registry' : Registry} {shelf : Shelf} {now : Int} {later : Nat → Int} {cache : Cache}
    {asked : String → History} {manifests : Ledger ModuleManifest} {result : Result}
    (hreplacements : c.project.replacements = []) (hplain : registry'.IsPlain)
    (hextends : registry'.Extends registry) (hcache : cache.IsEmpty)
    (hreadable : ∀ q ∈ (Goal.project c.wanted).requirements shelf, q.isReadable = true)
    (hnamed : ∀ q ∈ shelf.requirements, q.name ≠ "")
    (hapart : Cache.KeysApart ((Agenda.start (Goal.project c.wanted).tasks [] []).places
      ((Goal.project c.wanted).requirements shelf)))
    (hleaves : Run.Leaves registry shelf c.wanted asked result.modules manifests)
    (hconcluded : (c.concluded c.wanted result.modules manifests env.depth).outcome = .ok result)
    (hlock : lock.modules = (c.lockfile result).modules)
    (hfrozen : options.frozen = true) (htool : options.toolVersion = c.options.toolVersion) :
    ∃ limit ending result', ending.report.outcome = .ok result' ∧
      result'.modules.Perm result.modules ∧
      ∀ {τ : Type} (inquiry : Gate.Inquiry τ) (st : τ),
        Command.run { c with lock := some lock, options } env'
          (.inMemory registry' none shelf now later) cache limit inquiry st = (some ending, st) := by
  have hrep := hleaves.replayable.mono hextends
  let frozen : Command := { c with lock := some lock, options }
  let pinned := Pinning.pinned frozen.wanted lock
  -- The lockfile pins the project, whose run then replays the result.
  have hnodup : (lock.modules.map LockedModule.name).Nodup :=
    hlock ▸ Lockfile.nodup_ofModules hrep.nodup
  have hnames : frozen.wanted.modules.map Requirement.name = c.wanted.modules.map Requirement.name := by
    rw [wanted_names, wanted_names]
  obtain ⟨hlocked, happly⟩ := hleaves.apply_eq hnamed hnames hlock
  have hpinned : frozen.prepared.outcome = .ok pinned := prepared_frozen hfrozen rfl happly
  obtain ⟨hpins, hall⟩ := pins_of_pinned hlock hnodup hlocked
  obtain ⟨limit, ended, hended, houtcome, hperm, hmanifests⟩ :=
    Run.replay_locked hplain hcache hrep hreadable (fun _ hq => List.mem_append_right _ hq)
      hleaves.named hapart hpins hall
  have hstart : Run.start (.project pinned) [] 1 cache env'.folder =
      .ok { agenda := .start (Goal.project pinned).tasks [] [], cache } := by
    have hnone : pinned.replacements = [] := (wanted_replacements frozen).trans hreplacements
    rw [Run.start_project, hnone]
    rfl
  -- What was checked for the first result holds for the second one.
  have hsub : ∀ entry ∈ ended.manifests.entries, entry ∈ manifests.entries := by
    rintro ⟨name, manifest⟩ hentry
    obtain ⟨m, hm, rfl, hserved⟩ := hmanifests _ hentry
    exact hleaves.kept m hm manifest hserved
  have hsame : pinned.arguments = c.wanted.arguments := by
    rw [wanted_arguments]
    exact wanted_arguments frozen
  obtain ⟨result', hconcluded', hresult⟩ :=
    concluded_of_subset frozen ended.agenda.resolved env'.depth htool hsame hsub hconcluded
  have hupgrades : ∀ m ∈ ended.agenda.resolved, Upgrade.ofModule? lock m = none := by
    intro m hm
    refine Upgrade.ofModule?_of_locked hnodup ?_
    exact hlock ▸ Lockfile.mem_ofModules.mpr ⟨m, hperm.mem_iff.mp hm, rfl⟩
  refine ⟨limit, frozen.passed pinned ended ended.agenda.resolved env'.depth, result', hconcluded',
    hresult ▸ hperm, ?_⟩
  intro τ inquiry st
  exact run_of_pass hpinned hstart hended houtcome
    (Gate.check_of_no_upgrade inquiry options.allowMajorUpgrades _ hupgrades)

section Reproduced

variable {σ : Type} {c : Command} {options : Options} {env env' : Environment}
variable {registry registry' : Registry} {shelf : Shelf} {now now' : Int} {later later' : Nat → Int}
variable {cache cache' : Cache} {limit : Nat} {inquiry : Gate.Inquiry σ} {st st' : σ}
variable {ending : Ending} {result : Result}

theorem leaves_of_returns {project : Project} (hunlocked : c.lock = none)
    (hreplacements : c.project.replacements = []) (hplain : registry.IsPlain)
    (hcache : cache.IsEmpty) (hprepared : c.prepared.outcome = .ok project)
    (hreadable : ∀ q ∈ (Goal.project project).requirements shelf, q.isReadable = true)
    (hapart : Cache.KeysApart ((Agenda.start (Goal.project project).tasks [] []).places
      ((Goal.project project).requirements shelf)))
    (hrun : c.run env (.inMemory registry none shelf now later) cache limit inquiry st =
      (some ending, st'))
    (hreturn : ending.report.outcome = .ok result) :
    project = c.wanted ∧ ∃ asked manifests,
      Run.Leaves registry shelf project asked result.modules manifests ∧
        (c.concluded project result.modules manifests env.depth).outcome = .ok result := by
  obtain ⟨project', start, run, hprepared', hstart, hfinish, houtcome, hconcluded⟩ :=
    run_returns hrun hreturn
  obtain rfl : project' = project := Except.ok.inj (hprepared'.symm.trans hprepared)
  have hproject := prepared_unlocked hunlocked hprepared
  have hleaves := Run.leaves_of_outcome hplain hcache
    (by rw [hproject, wanted_replacements, hreplacements]) hreadable hapart hstart hfinish houtcome
  exact ⟨hproject, _, _, hleaves, hconcluded⟩

/-- The same for the lockfile that is read from the text written for the result, if the names,
locations and versions in it come back unchanged. -/
theorem frozen_reproduces_written {project : Project} (path : String) {written : Instant}
    (hwritten : written.IsValid)
    (hunlocked : c.lock = none) (hreplacements : c.project.replacements = [])
    (hplain : registry.IsPlain) (hplain' : registry'.IsPlain)
    (hextends : registry'.Extends registry)
    (hcache : cache.IsEmpty) (hcache' : cache'.IsEmpty)
    (hprepared : c.prepared.outcome = .ok project)
    (hreadable : ∀ q ∈ (Goal.project project).requirements shelf, q.isReadable = true)
    (hnamed : ∀ q ∈ shelf.requirements, q.name ≠ "")
    (hapart : Cache.KeysApart ((Agenda.start (Goal.project project).tasks [] []).places
      ((Goal.project project).requirements shelf)))
    (hrun : c.run env (.inMemory registry none shelf now later) cache limit inquiry st =
      (some ending, st'))
    (hreturn : ending.report.outcome = .ok result)
    (hkept : ∀ m ∈ result.modules, (LockedModule.ofPinned m).readBack = .ofPinned m)
    (hfrozen : options.frozen = true) (htool : options.toolVersion = c.options.toolVersion) :
    ∃ lock, (Lockfile.readText path (Lockfile.text written (c.lockfile result))).outcome = .ok lock ∧
      ∃ limit' ending' result', ending'.report.outcome = .ok result' ∧
        result'.modules.Perm result.modules ∧
        ∀ {τ : Type} (inquiry' : Gate.Inquiry τ) (st : τ),
          Command.run { c with lock := some lock, options } env'
            (.inMemory registry' none shelf now' later') cache' limit' inquiry' st =
              (some ending', st) := by
  obtain ⟨rfl, asked, manifests, hleaves, hconcluded⟩ := leaves_of_returns hunlocked hreplacements
    hplain hcache hprepared hreadable hapart hrun hreturn
  refine ⟨_, Lockfile.readText_text path hwritten, ?_⟩
  exact frozen_of_leaves hreplacements hplain' hextends hcache' hreadable hnamed hapart hleaves
    hconcluded ((Lockfile.modules_readBack_iff written).mpr hkept) hfrozen htool

end Reproduced

/-- Two modules that need each other; `a` wants `b` from the channel `beta`. -/
def pairShelf : Shelf where
  items := [
    { uri := "https://a"
      manifest := { name := "a", modules := [{ name := "b", channel := "beta" }] } },
    { uri := "https://b"
      manifest := { name := "b", modules := [{ name := "a", version := "^1.0.0" }] } }]

def pairTags : Registry where
  tags := [("https://a", ["1.0.0", "v1.1.0", "2.0.0"]), ("https://b", ["v0.1.0"])]

def pairTagsLater : Registry where
  tags := [("https://a", ["1.0.0", "v1.1.0", "v1.2.0", "2.0.0"]), ("https://b", ["v0.1.0", "v0.2.0"])]

def pairCommand : Command where
  project := { name := "svc", modules := [{ name := "a", version := ">=1.0.0" }] }

def pairModules : List PinnedModule :=
  [{ name := "a", uri := "https://a", version := "v1.1.0" },
    { name := "b", uri := "https://b", version := "v0.1.0" }]

/-- Nobody is there to be asked. -/
def silence : Gate.Inquiry Unit where
  isInteractive := return false
  fetchNotes _ _ _ := return .ok ""
  confirm _ _ _ _ := return .ok false

theorem pair_resolves : ∃ run,
    Run.finish? (.inMemory pairTags none pairShelf 0) 10
        { agenda := .start (Goal.project pairCommand.project).tasks [] []
          cache := { root := "/cache" } } = some run ∧
      run.outcome = .ok pairModules ∧
      ∀ entry ∈ run.manifests.entries, entry.2.toolVersion = none ∧ entry.2.arguments = [] := by
  obtain ⟨run, hrun, hmodules, hplain⟩ : ∃ run,
      Run.finish? (.inMemory pairTags none pairShelf 0) 10
          { agenda := .start (Goal.project pairCommand.project).tasks [] []
            cache := { root := "/cache" } } = some run ∧
        run.outcome.toOption = some pairModules ∧
        ∀ entry ∈ run.manifests.entries,
          entry.2.toolVersion = none ∧ entry.2.arguments.isEmpty = true := by
    apply Run.exists_of_any
    decide +kernel
  refine ⟨run, hrun, Run.ok_of_toOption hmodules, fun entry hentry => ?_⟩
  obtain ⟨hnone, hempty⟩ := hplain entry hentry
  exact ⟨hnone, List.isEmpty_iff.mp hempty⟩

theorem pair_returns : ∃ ending result,
    pairCommand.run {} (.inMemory pairTags none pairShelf 0) { root := "/cache" } 10 silence () =
      (some ending, ()) ∧ ending.report.outcome = .ok result ∧ result.modules = pairModules := by
  obtain ⟨run, hrun, houtcome, hplain⟩ := pair_resolves
  have hcheck : ToolVersion.check run.manifests "0.4.0" = .ok () := by
    refine ToolVersion.check_eq_ok.mpr ⟨.release 0 4 0, by decide +kernel, ?_⟩
    intro name manifest required hentry hrequired
    have hnone : manifest.toolVersion = none := (hplain _ hentry).1
    simp [hnone] at hrequired
  obtain ⟨arguments, harguments⟩ :
      ∃ arguments, argumentsOf pairCommand.project run.manifests Nesting.limit = .ok arguments := by
    apply exists_argumentsOf.mpr
    intro entry hentry
    rw [(hplain entry hentry).2]
    simp
  have hconcluded : (pairCommand.concluded pairCommand.project pairModules run.manifests
      Nesting.limit).outcome = .ok { modules := pairModules, manifests := run.manifests, arguments } :=
    concluded_eq_ok.mpr ⟨hcheck, arguments, harguments, rfl⟩
  exact ⟨pairCommand.passed pairCommand.project run pairModules Nesting.limit, _,
    run_of_pass rfl (Run.start_project _ _ _) hrun houtcome rfl, hconcluded, rfl⟩

theorem isPlain_pairTagsLater : pairTagsLater.IsPlain := by
  refine Registry.isPlain_of_tags rfl ?_ (by decide +kernel)
  have htags : ∀ tag ∈ ["1.0.0", "v1.1.0", "v1.2.0", "2.0.0", "v0.1.0", "v0.2.0"],
      IsPlainTag tag := by
    simp only [List.forall_mem_cons]
    exact ⟨⟨1, 0, 0, .inl (by decide +kernel)⟩, ⟨1, 1, 0, .inr (by decide +kernel)⟩,
      ⟨1, 2, 0, .inr (by decide +kernel)⟩, ⟨2, 0, 0, .inl (by decide +kernel)⟩,
      ⟨0, 1, 0, .inr (by decide +kernel)⟩, ⟨0, 2, 0, .inr (by decide +kernel)⟩, by simp⟩
  intro entry hentry tag htag
  apply htags tag
  revert tag entry
  decide +kernel

theorem extends_pairTags : pairTagsLater.Extends pairTags := by
  intro url tag htag
  unfold Registry.tagsOf pairTags at htag
  unfold Registry.tagsOf pairTagsLater
  by_cases ha : url = "https://a"
  · subst ha
    revert tag
    decide +kernel
  · have hna : (url == "https://a") = false := by simpa using ha
    by_cases hb : url = "https://b"
    · subst hb
      revert tag
      decide +kernel
    · have hnb : (url == "https://b") = false := by simpa using hb
      simp [List.lookup_cons, hna, hnb] at htag

/-- What was locked of both modules also comes back from a written lockfile. -/
example : ∀ m ∈ pairModules, (LockedModule.ofPinned m).readBack = .ofPinned m := by
  decide +kernel

end Command

end ModulePins
