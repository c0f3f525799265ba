import ModulePins.Proofs.Resolution.History
import ModulePins.Resolution.Run

/-!
# Transitions of a run

What dealing with one request can do to a run. A request whose version is a broken range is lost
together with the worker that took it. Any other request either ends the run with a failure or
settles its module: the module is chosen and expanded afterwards. The invariants of runs are derived
from these cases and do not look into the steps again.
-/

namespace ModulePins

/-- The tasks that come with the manifest of a module. -/
def ModuleManifest.tasks (manifest : ModuleManifest) (m : PinnedModule) : List Task :=
  manifest.modules.map fun requirement => { requirement, parent := m.label }

/-- Where and at which version a module is fetched. -/
def PinnedModule.fetch (m : PinnedModule) : Fetch :=
  { uri := m.uri, version := m.version }

/-- The module that a pick stands for. -/
def Pick.pinned (pick : Pick) (name uri : String) : PinnedModule :=
  { name, uri, version := pick.tag, mutable := pick.mutable }

/-- Given modules are chosen from the beginning, under their own names. -/
def Agenda.IsSound (a : Agenda) : Prop :=
  ∀ name e, a.find? name = some e → e.given = true →
    ∃ m, e.chosen = some m ∧ m.name = name

namespace Run

/-- How a pick comes about, with the cache and the queries before and after. -/
inductive Picked (s : Surroundings) (cache : Cache) (queries : List Query) (uri : String)
    (before : Option Pick) (history : History) : Pick → Cache → List Query → Prop
  | stays {pick : Pick} (hbefore : before = some pick) (hmutable : pick.mutable = true) :
      Picked s cache queries uri before history pick cache queries
  | here (hbefore : ∀ p, before = some p → p.mutable = false)
      (hlocal : Location.isLocal uri = true) :
      Picked s cache queries uri before history .ofLocal cache queries
  | cached {pick : Pick} (hbefore : ∀ p, before = some p → p.mutable = false)
      (hremote : Location.isLocal uri = false)
      (hget : (cache.get s.now uri history.channel).outcome = .ok (some pick))
      (husable : isUsable history.constraints pick = true) :
      Picked s cache queries uri before history pick cache queries
  | asked {pick : Pick} {found : Option Pick} {after : Cache}
      (hbefore : ∀ p, before = some p → p.mutable = false)
      (hremote : Location.isLocal uri = false)
      (hget : (cache.get s.now uri history.channel).outcome = .ok found)
      (hunusable : ∀ p, found = some p → isUsable history.constraints p = false)
      (hanswer : s.versions queries (history.query uri) = .ok pick)
      (hput : cache.put s.now uri history.channel pick = .ok after) :
      Picked s cache queries uri before history pick after (queries ++ [history.query uri])

/-- A request was dealt with: `m` is chosen and expanded, its entry became `entry`, and `fetched` is
its manifest if it was not expanded before. -/
structure Handled (s : Surroundings) (r r' : Run) (rest : List Task) (m : PinnedModule)
    (entry : Entry) (fetched : Option ModuleManifest) : Prop where
  tasks : r'.agenda.tasks = rest ++ fetched.elim [] fun manifest => manifest.tasks m
  replacements : r'.agenda.replacements = r.agenda.replacements
  order : r'.agenda.order = (r.agenda.meet m.name).order
  find : ∀ other, r'.agenda.find? other = if other = m.name then some entry else r.agenda.find? other
  chosen : entry.chosen = some m
  expanded : entry.expanded = some m
  known : fetched = none → (r.agenda.find? m.name).bind Entry.expanded = some m
  fresh : ∀ manifest, fetched = some manifest →
    (r.agenda.find? m.name).bind Entry.expanded ≠ some m ∧
      (s.manifests r.fetches m.fetch).outcome = .ok manifest ∧
      manifest.name = m.name
  manifests : r'.manifests = fetched.elim r.manifests fun manifest => r.manifests.put m.name manifest
  workers : r'.workers = r.workers
  failure : r'.failure = none

/-- The entry of a module that was settled on a pick. -/
def settledEntry (history : History) (pick : Pick) (m : PinnedModule) : Entry :=
  { history, chosen := some m, pick := some pick, expanded := some m }

structure GivenStep (s : Surroundings) (r r' : Run) (task : Task) (rest : List Task) (d : Demand)
    (m : PinnedModule) (before : Entry) (fetched : Option ModuleManifest) : Prop
    extends Handled s r r' rest m { before with expanded := some m } fetched where
  first : r.agenda.tasks = task :: rest
  demand : Agenda.demand task = .ok d
  name : m.name = task.requirement.name
  was : r.agenda.find? m.name = some before
  given : before.given = true
  cache : r'.cache = r.cache
  queries : r'.queries = r.queries

/-- The first task is for a module that is not given; `before` is its entry so far. -/
structure Taken (r : Run) (task : Task) (rest : List Task) (d : Demand) (before : Entry) :
    Prop where
  first : r.agenda.tasks = task :: rest
  demand : Agenda.demand task = .ok d
  was : before = (r.agenda.find? task.requirement.name).getD {}
  notGiven : before.given = false

/-- A step for any other module. -/
structure PickedStep (s : Surroundings) (r r' : Run) (task : Task) (rest : List Task) (d : Demand)
    (m : PinnedModule) (before : Entry) (pick : Pick) (fetched : Option ModuleManifest) : Prop
    extends Handled s r r' rest m (settledEntry (before.history ++ [d]) pick m) fetched,
      Taken r task rest d before where
  agreed : Demand.isOffStable d.channel = true → d.channel = (before.history ++ [d]).channel
  shape : m = pick.pinned task.requirement.name (r.agenda.uriOf task.requirement.name)
  picked : Picked s r.cache r.queries m.uri before.pick (before.history ++ [d]) pick
    r'.cache r'.queries

/-- Why no pick comes about, apart from conflicts. -/
inductive Unpicked (s : Surroundings) (cache : Cache) (queries : List Query) (uri : String)
    (history : History) : Prop
  | unread {failure : Failure}
      (hget : (cache.get s.now uri history.channel).outcome = .error failure)
  | unanswered {failure : Failure}
      (hanswer : s.versions queries (history.query uri) = .error failure)
  | unwritten {pick : Pick} {fault : FileFault}
      (hanswer : s.versions queries (history.query uri) = .ok pick)
      (hput : cache.put s.now uri history.channel pick = .error fault)

/-- There is no manifest for a module, or one that declares another name. -/
def Unserved (s : Surroundings) (r : Run) (m : PinnedModule) : Prop :=
  ∀ manifest, (s.manifests r.fetches m.fetch).outcome = .ok manifest → manifest.name ≠ m.name

/-- Why a step fails. -/
inductive Obstacle (s : Surroundings) (r : Run) : Prop
  | conflict {task : Task} {rest : List Task} {d : Demand} {before : Entry}
      (htaken : Taken r task rest d before) (hoff : Demand.isOffStable d.channel = true)
      (hother : d.channel ≠ History.channel (before.history ++ [d]))
  | unpicked {task : Task} {rest : List Task} {d : Demand} {before : Entry}
      (htaken : Taken r task rest d before)
      (h : Unpicked s r.cache r.queries (r.agenda.uriOf task.requirement.name)
        (before.history ++ [d]))
  | givenUnserved {m : PinnedModule} {before : Entry}
      (hwas : r.agenda.find? m.name = some before) (hgiven : before.given = true)
      (h : Unserved s r m)
  | pickedUnserved {task : Task} {rest : List Task} {d : Demand} {before : Entry}
      {m : PinnedModule} {pick : Pick} {after : Cache} {queries : List Query}
      (htaken : Taken r task rest d before)
      (hshape : m = pick.pinned task.requirement.name (r.agenda.uriOf task.requirement.name))
      (hpicked : Picked s r.cache r.queries m.uri before.pick (before.history ++ [d]) pick after
        queries)
      (h : Unserved s r m)

/-- What one step can do. -/
inductive Transition (s : Surroundings) (r : Run) : Run → Prop
  | lost {task : Task} {rest : List Task} {fault : RangeFault}
      (htasks : r.agenda.tasks = task :: rest)
      (hbroken : Agenda.demand task = .error fault) :
      Transition s r
        { r with agenda := { r.agenda with tasks := rest }, workers := r.workers - 1 }
  | failed {r' : Run} (hfailure : r'.failure.isSome = true) (hobstacle : Obstacle s r) :
      Transition s r r'
  | given {r' : Run} {task : Task} {rest : List Task} {d : Demand} {m : PinnedModule}
      {before : Entry} {fetched : Option ModuleManifest}
      (h : GivenStep s r r' task rest d m before fetched) : Transition s r r'
  | picked {r' : Run} {task : Task} {rest : List Task} {d : Demand} {m : PinnedModule}
      {before : Entry} {pick : Pick} {fetched : Option ModuleManifest}
      (h : PickedStep s r r' task rest d m before pick fetched) : Transition s r r'

variable {s t : Surroundings} {r r' start : Run}

theorem askVersion_ok {name uri : String} {history : History} {pick : Pick}
    (h : askVersion s r name uri history = (r', .ok pick)) :
    ∃ cache, r' = { r with cache, queries := r.queries ++ [history.query uri] } ∧
      s.versions r.queries (history.query uri) = .ok pick ∧
      r.cache.put s.now uri history.channel pick = .ok cache := by
  unfold askVersion at h
  dsimp only at h
  split at h
  · cases h
  · rename_i hanswer
    split at h
    · cases h
    · rename_i cache hput
      cases h
      exact ⟨cache, rfl, hanswer, hput⟩

theorem askVersion_error {name uri : String} {history : History} {failure : Failure}
    (h : askVersion s r name uri history = (r', .error failure)) :
    Unpicked s r.cache r.queries uri history := by
  unfold askVersion at h
  dsimp only at h
  split at h
  · rename_i hanswer
    exact .unanswered hanswer
  · rename_i hanswer
    split at h
    · rename_i hput
      exact .unwritten hanswer hput
    · cases h

theorem lookUpVersion_ok {name uri : String} {history : History} {pick : Pick}
    {before : Option Pick} (hbefore : ∀ p, before = some p → p.mutable = false)
    (hremote : Location.isLocal uri = false)
    (h : lookUpVersion s r name uri history = (r', .ok pick)) :
    ∃ cache queries notices, r' = { r with cache, queries, notices } ∧
      Picked s r.cache r.queries uri before history pick cache queries := by
  unfold lookUpVersion at h
  dsimp only at h
  split at h
  · cases h
  · rename_i hget
    obtain ⟨cache, rfl, hanswer, hput⟩ := askVersion_ok h
    exact ⟨cache, _, _, rfl, .asked hbefore hremote hget (by simp) hanswer hput⟩
  · rename_i found hget
    split at h
    · rename_i husable
      cases h
      exact ⟨_, _, _, rfl, .cached hbefore hremote hget husable⟩
    · rename_i hunusable
      obtain ⟨cache, rfl, hanswer, hput⟩ := askVersion_ok h
      refine ⟨cache, _, _, rfl, .asked hbefore hremote hget ?_ hanswer hput⟩
      intro p hp
      cases hp
      simpa using hunusable

theorem lookUpVersion_error {name uri : String} {history : History} {failure : Failure}
    (h : lookUpVersion s r name uri history = (r', .error failure)) :
    Unpicked s r.cache r.queries uri history := by
  unfold lookUpVersion at h
  dsimp only at h
  split at h
  · rename_i hget
    exact .unread hget
  · have hunpicked := askVersion_error h
    exact hunpicked
  · split at h
    · cases h
    · have hunpicked := askVersion_error h
      exact hunpicked

/-- A demand that is in no conflict with the history asks for its channel, if for any. -/
theorem channel_of_conflict?_eq_none {item : Item} {history : History}
    (h : conflict? item history = none) (hpinned : history.pinning? ≠ none)
    (hoff : Demand.isOffStable item.channel = true) : item.channel = history.channel := by
  unfold conflict? at h
  split at h
  · rename_i hnone
    exact absurd hnone hpinned
  · rename_i pinned hsome
    split at h
    · cases h
    · rename_i hsame
      simp only [hoff, Bool.true_and, decide_eq_true_eq] at hsame
      simpa [History.channel, hsome] using hsame

theorem off_of_conflict?_eq_some {item : Item} {history : History} {failure : Failure}
    (h : conflict? item history = some failure) :
    Demand.isOffStable item.channel = true ∧ item.channel ≠ history.channel := by
  unfold conflict? at h
  split at h
  · cases h
  · rename_i pinned hsome
    split at h
    · rename_i hother
      simpa [History.channel, hsome] using hother
    · cases h

theorem choosePick_error {item : Item} {uri : String} {failure : Failure}
    (h : choosePick s r item uri = (r', .error failure)) :
    (Demand.isOffStable item.channel = true ∧
        item.channel ≠ (r.agenda.history item.name).channel) ∨
      Unpicked s r.cache r.queries uri (r.agenda.history item.name) := by
  unfold choosePick at h
  dsimp only at h
  split at h
  · rename_i hconflict
    exact .inl (off_of_conflict?_eq_some hconflict)
  · right
    split at h
    · cases h
    · split at h
      · cases h
      · exact lookUpVersion_error h

/-- Without a mutable pick so far, whatever was picked may move on. -/
theorem immutable_of_filter_eq_none {before : Option Pick} (h : before.filter Pick.mutable = none)
    (p : Pick) (hp : before = some p) : p.mutable = false := by
  simpa using Option.filter_eq_none_iff.mp h p hp

theorem choosePick_ok {item : Item} {uri : String} {pick : Pick}
    (h : choosePick s r item uri = (r', .ok pick)) :
    conflict? item (r.agenda.history item.name) = none ∧
      ∃ cache queries notices, r' = { r with cache, queries, notices } ∧
        Picked s r.cache r.queries uri ((r.agenda.find? item.name).bind Entry.pick)
          (r.agenda.history item.name) pick cache queries := by
  unfold choosePick at h
  dsimp only at h
  split at h
  · cases h
  · rename_i hconflict
    refine ⟨hconflict, ?_⟩
    split at h
    · rename_i hstays
      cases h
      obtain ⟨hbefore, hmutable⟩ := Option.filter_eq_some_iff.mp hstays
      exact ⟨_, _, _, rfl, .stays hbefore hmutable⟩
    · rename_i hnone
      have hbefore := immutable_of_filter_eq_none hnone
      split at h
      · rename_i hlocal
        cases h
        exact ⟨_, _, _, rfl, .here hbefore hlocal⟩
      · rename_i hremote
        exact lookUpVersion_ok hbefore (by simpa using hremote) h

theorem expand_cases (s : Surroundings) (r : Run) (m : PinnedModule) :
    ((r.agenda.find? m.name).bind Entry.expanded = some m ∧ expand s r m = r) ∨
      (expand s r m).failure.isSome = true ∧ Unserved s r m ∨
      ∃ manifest fetches notices,
        (r.agenda.find? m.name).bind Entry.expanded ≠ some m ∧
        (s.manifests r.fetches m.fetch).outcome = .ok manifest ∧
        manifest.name = m.name ∧
        expand s r m =
          { r with
            agenda :=
              { r.agenda.update m.name fun e => { e with expanded := some m } with
                tasks := r.agenda.tasks ++ manifest.tasks m }
            manifests := r.manifests.put m.name manifest, fetches, notices } := by
  by_cases hexp : (r.agenda.find? m.name).bind Entry.expanded = some m
  · exact .inl ⟨hexp, by simp [expand, hexp]⟩
  right
  have hfetch : ({ uri := m.uri, version := m.version } : Fetch) = m.fetch := rfl
  unfold expand
  rw [if_neg hexp]
  dsimp only [fetchManifest]
  rw [hfetch]
  cases houtcome : (s.manifests r.fetches m.fetch).outcome with
  | error failure =>
    refine .inl ⟨rfl, ?_⟩
    intro manifest hmanifest
    simp [houtcome] at hmanifest
  | ok manifest =>
    dsimp only
    by_cases hname : manifest.name = m.name
    · rw [if_pos hname]
      exact .inr ⟨manifest, _, _, hexp, rfl, hname, rfl⟩
    · rw [if_neg hname]
      refine .inl ⟨rfl, ?_⟩
      intro served hserved
      rw [houtcome, Except.ok.injEq] at hserved
      exact hserved ▸ hname

/-- After a module was chosen only its expansion is left: `entry` is its entry in `mid`, where all
else is as in `r`. -/
theorem handled_of_expand (mid : Run) (rest : List Task) (m : PinnedModule) (entry : Entry)
    (htasks : mid.agenda.tasks = rest)
    (hreplacements : mid.agenda.replacements = r.agenda.replacements)
    (horder : mid.agenda.order = (r.agenda.meet m.name).order)
    (hfind : ∀ other,
      mid.agenda.find? other = if other = m.name then some entry else r.agenda.find? other)
    (hchosen : entry.chosen = some m)
    (hexpanded : entry.expanded = (r.agenda.find? m.name).bind Entry.expanded)
    (hmanifests : mid.manifests = r.manifests) (hfetches : mid.fetches = r.fetches)
    (hworkers : mid.workers = r.workers) (hfailure : mid.failure = none) :
    (expand s mid m).failure.isSome = true ∧ Unserved s r m ∨
      ∃ fetched, Handled s r (expand s mid m) rest m { entry with expanded := some m } fetched ∧
        (expand s mid m).cache = mid.cache ∧ (expand s mid m).queries = mid.queries := by
  have hself : mid.agenda.find? m.name = some entry := by simp [hfind]
  have hbefore : (mid.agenda.find? m.name).bind Entry.expanded =
      (r.agenda.find? m.name).bind Entry.expanded := by simp [hself, hexpanded]
  obtain ⟨hknown, heq⟩ | ⟨hfailed, hunserved⟩ | ⟨manifest, fetches, notices, hnew, hserved, hname, heq⟩ :=
    expand_cases s mid m
  · -- The module is the one expanded last, so the entry is marked already.
    right
    refine ⟨none, ?_, by rw [heq], by rw [heq]⟩
    have hentry : { entry with expanded := some m } = entry := by
      rw [hself, Option.bind_some] at hknown
      rw [← hknown]
    rw [heq, hentry]
    exact
      { tasks := by simpa using htasks
        replacements := hreplacements
        order := horder
        find := hfind
        chosen := hchosen
        expanded := by simpa [hself] using hknown
        known := fun _ => hbefore ▸ hknown
        fresh := by simp
        manifests := hmanifests
        workers := hworkers
        failure := hfailure }
  · rw [Unserved, hfetches] at hunserved
    exact .inl ⟨hfailed, hunserved⟩
  · right
    refine ⟨some manifest, ?_, by rw [heq], by rw [heq]⟩
    rw [heq]
    exact
      { tasks := by simp [htasks]
        replacements := hreplacements
        order := horder
        find := by
          intro other
          change (mid.agenda.update m.name fun e => { e with expanded := some m }).find? other = _
          by_cases ho : other = m.name <;> simp [ho, hself, hfind]
        chosen := hchosen
        expanded := rfl
        known := by simp
        fresh := by
          intro served hs
          cases hs
          exact ⟨hbefore ▸ hnew, hfetches ▸ hserved, hname⟩
        manifests := by simp [hmanifests]
        workers := hworkers
        failure := hfailure }

theorem Handled.requirements {P : Requirement → Prop} {task : Task} {rest : List Task}
    {m : PinnedModule} {entry : Entry} {fetched : Option ModuleManifest}
    (h : Handled s r r' rest m entry fetched) (htasks : r.agenda.tasks = task :: rest)
    (hserved : ∀ before fetch manifest, (s.manifests before fetch).outcome = .ok manifest →
      ∀ q ∈ manifest.modules, P q)
    (hr : ∀ task ∈ r.agenda.tasks, P task.requirement) :
    ∀ task ∈ r'.agenda.tasks, P task.requirement := by
  intro t ht
  rw [h.tasks] at ht
  rcases List.mem_append.mp ht with ht | ht
  · exact hr t (by rw [htasks]; exact List.mem_cons_of_mem _ ht)
  · cases hf : fetched with
    | none => simp [hf] at ht
    | some manifest =>
      rw [hf] at ht
      obtain ⟨q, hq, rfl⟩ := List.mem_map.mp ht
      exact hserved _ _ _ (h.fresh manifest hf).2.1 q hq

theorem PickedStep.own {task : Task} {rest : List Task} {d : Demand} {m : PinnedModule}
    {before : Entry} {pick : Pick} {fetched : Option ModuleManifest}
    (h : PickedStep s r r' task rest d m before pick fetched) : m.name = task.requirement.name := by
  rw [h.shape, Pick.pinned]

theorem PickedStep.shape_of {task : Task} {rest : List Task} {d : Demand} {m : PinnedModule}
    {before : Entry} {pick : Pick} {fetched : Option ModuleManifest} {a : Agenda}
    (h : PickedStep s r r' task rest d m before pick fetched)
    (hsame : a.replacements = r.agenda.replacements) : m = pick.pinned m.name (a.uriOf m.name) := by
  rw [h.own, Agenda.uriOf_congr hsame]
  exact h.shape

theorem exists_task_of_isActive (h : r.isActive = true) :
    r.failure = none ∧ ∃ task rest, r.agenda.tasks = task :: rest := by
  simp only [isActive, Bool.and_eq_true, Option.isNone_iff_eq_none, Bool.not_eq_true',
    List.isEmpty_eq_false_iff] at h
  obtain ⟨⟨hfailure, _⟩, htasks⟩ := h
  exact ⟨hfailure, List.exists_cons_of_ne_nil htasks⟩

theorem pinning?_append_ne_none (history : History) {d : Demand}
    (h : Demand.isOffStable d.channel = true) : History.pinning? (history ++ [d]) ≠ none := by
  intro hnone
  have hd := List.find?_eq_none.mp hnone d (by simp)
  exact hd h

theorem step_of_given {task : Task} {rest : List Task} {d : Demand} {entry : Entry}
    {m : PinnedModule} (htasks : r.agenda.tasks = task :: rest)
    (hdemand : Agenda.demand task = .ok d) (hfind : r.agenda.find? m.name = some entry)
    (hgiven : entry.given = true) (hchosen : entry.chosen = some m)
    (hname : m.name = task.requirement.name) :
    step s r =
      expand s { r with agenda := { r.agenda with tasks := rest }.meet m.name } m := by
  have hbase : { r.agenda with tasks := rest }.find? task.requirement.name = some entry :=
    hname ▸ hfind
  have hrecord := Agenda.record_of_given { r.agenda with tasks := rest } task d
    (by simp [hbase, hgiven])
  have hentry : ({ r.agenda with tasks := rest }.meet m.name).find? m.name = some entry := by
    rw [Agenda.find?_meet]
    exact hfind
  simp only [step, Agenda.pop, htasks, hdemand, hrecord, process, ← hname, hentry,
    Option.bind_some, hchosen]

theorem step_given {task : Task} {rest : List Task} {d : Demand} {entry : Entry}
    {m : PinnedModule} (hfailure : r.failure = none) (htasks : r.agenda.tasks = task :: rest)
    (hdemand : Agenda.demand task = .ok d) (hfind : r.agenda.find? m.name = some entry)
    (hgiven : entry.given = true) (hchosen : entry.chosen = some m)
    (hname : m.name = task.requirement.name) : Transition s r (step s r) := by
  rw [step_of_given htasks hdemand hfind hgiven hchosen hname]
  obtain ⟨hfailed, hunserved⟩ | ⟨fetched, hhandled, hcache, hqueries⟩ :=
    handled_of_expand (s := s) (r := r)
      { r with agenda := { r.agenda with tasks := rest }.meet m.name } rest m entry
      (by simp) (by simp)
      (Agenda.order_meet_congr { r.agenda with tasks := rest } r.agenda rfl m.name)
      (by
        intro other
        rw [Agenda.find?_meet]
        by_cases ho : other = m.name
        · rw [if_pos ho, ho]
          exact hfind
        · rw [if_neg ho]
          rfl)
      hchosen (by rw [hfind, Option.bind_some]) rfl rfl rfl hfailure
  · exact .failed hfailed (.givenUnserved hfind hgiven hunserved)
  · exact .given
      { hhandled with
        first := htasks
        demand := hdemand
        name := hname
        was := hfind
        given := hgiven
        cache := hcache
        queries := hqueries }

/-- The run once the demand of its first task is recorded. -/
def noting (r : Run) (task : Task) (rest : List Task) (d : Demand) : Run :=
  { r with agenda := { r.agenda with tasks := rest }.recorded task.requirement.name d }

def itemOf (r : Run) (task : Task) (d : Demand) : Item where
  name := task.requirement.name
  task := task
  constraint := d.constraint
  channel := d.channel
  uri := some (r.agenda.uriOf task.requirement.name)

section Taken

variable {task : Task} {rest : List Task} {d : Demand} {before : Entry}

theorem step_of_taken (h : Taken r task rest d before) :
    step s r = process s (r.noting task rest d) (r.itemOf task d) := by
  have hrecord := Agenda.record_of_not_given { r.agenda with tasks := rest } task d
    (h.was ▸ h.notGiven)
  simp only [step, Agenda.pop, h.first, h.demand]
  rw [hrecord]
  rfl

theorem Taken.find?_noting (h : Taken r task rest d before) (other : String) :
    (r.noting task rest d).agenda.find? other =
      if other = task.requirement.name then some { before with history := before.history ++ [d] }
      else r.agenda.find? other := by
  rw [noting, Agenda.find?_recorded, h.was]
  rfl

theorem Taken.history_noting (h : Taken r task rest d before) :
    (r.noting task rest d).agenda.history task.requirement.name = before.history ++ [d] := by
  simp [Agenda.history, h.find?_noting]

def withChosen (r : Run) (m : PinnedModule) (pick : Pick) : Run :=
  { r with agenda := r.agenda.update m.name fun e => { e with pick := some pick, chosen := some m } }

theorem process_of_choosePick {item : Item} {uri : String} {pick : Pick}
    (huri : item.uri = some uri) (h : choosePick s r item uri = (r', .ok pick)) :
    process s r item =
      expand s (r'.withChosen (pick.pinned item.name uri) pick) (pick.pinned item.name uri) := by
  simp only [process, huri, h]
  rfl

theorem process_of_error {item : Item} {uri : String} {failure : Failure}
    (huri : item.uri = some uri) (h : choosePick s r item uri = (r', .error failure)) :
    process s r item = r'.fail failure := by
  simp only [process, huri, h]

theorem Taken.step_of_error (htaken : Taken r task rest d before) {failure : Failure}
    (h : choosePick s (r.noting task rest d) (r.itemOf task d)
      (r.agenda.uriOf task.requirement.name) = (r', .error failure)) :
    step s r = r'.fail failure := by
  rw [step_of_taken htaken, process_of_error rfl h]

theorem Taken.obstacle (htaken : Taken r task rest d before) {failure : Failure}
    (h : choosePick s (r.noting task rest d) (r.itemOf task d)
      (r.agenda.uriOf task.requirement.name) = (r', .error failure)) :
    (step s r).failure.isSome = true ∧ Obstacle s r := by
  refine ⟨by rw [htaken.step_of_error h]; rfl, ?_⟩
  have herror := choosePick_error h
  dsimp only [itemOf] at herror
  rw [htaken.history_noting] at herror
  rcases herror with ⟨hoff, hother⟩ | hunpicked
  · exact .conflict htaken hoff hother
  · exact .unpicked htaken hunpicked

theorem Taken.pickedStep (hfailure : r.failure = none) (htaken : Taken r task rest d before)
    {pick : Pick} (h : choosePick s (r.noting task rest d) (r.itemOf task d)
      (r.agenda.uriOf task.requirement.name) = (r', .ok pick)) :
    ((step s r).failure.isSome = true ∧ Obstacle s r) ∨
      ∃ m fetched, PickedStep s r (step s r) task rest d m before pick fetched := by
  have hself : (r.noting task rest d).agenda.find? task.requirement.name =
      some { before with history := before.history ++ [d] } := by
    rw [htaken.find?_noting, if_pos rfl]
  obtain ⟨hconflict, cache, queries, notices, rfl, hpicked⟩ := choosePick_ok h
  dsimp only [itemOf] at hconflict hpicked
  rw [htaken.history_noting] at hconflict
  rw [hself, htaken.history_noting] at hpicked
  let m := pick.pinned task.requirement.name (r.agenda.uriOf task.requirement.name)
  let chosen : Entry := { before with
    history := before.history ++ [d], pick := some pick, chosen := some m }
  let mid : Run := withChosen { r.noting task rest d with cache, queries, notices } m pick
  have hstep : step s r = expand s mid m := by
    rw [step_of_taken htaken, process_of_choosePick rfl h]
    rfl
  have hentry : { chosen with expanded := some m } =
      settledEntry (before.history ++ [d]) pick m := by
    simp [settledEntry, chosen, htaken.notGiven]
  have hmid : ∀ other, mid.agenda.find? other =
      if other = m.name then some chosen else r.agenda.find? other := by
    intro other
    simp only [mid, withChosen, Agenda.find?_update, htaken.find?_noting]
    by_cases ho : other = task.requirement.name
    · simp [ho, m, chosen, Pick.pinned]
    · simp [ho, m, Pick.pinned]
  have hexpanded : chosen.expanded = (r.agenda.find? m.name).bind Entry.expanded := by
    simp only [chosen, htaken.was, m, Pick.pinned]
    cases r.agenda.find? task.requirement.name <;> rfl
  rw [hstep]
  obtain ⟨hfailed, hunserved⟩ | ⟨fetched, hhandled, hcache, hqueries⟩ :=
    handled_of_expand (s := s) (r := r) mid rest m chosen
      (by simp [mid, withChosen, noting]) (by simp [mid, withChosen, noting])
      (Agenda.order_meet_congr { r.agenda with tasks := rest } r.agenda rfl m.name)
      hmid rfl hexpanded rfl rfl rfl hfailure
  · exact .inl ⟨hfailed, .pickedUnserved htaken rfl hpicked hunserved⟩
  · rw [hentry] at hhandled
    exact .inr ⟨m, fetched,
      { hhandled, htaken with
        agreed := fun hoff =>
          channel_of_conflict?_eq_none hconflict (pinning?_append_ne_none _ hoff) hoff
        shape := rfl
        picked := by
          rw [hcache, hqueries]
          exact hpicked }⟩

/-- The step for any other module fails, or a pick comes about and settles the module. -/
theorem step_picked (hfailure : r.failure = none) (htaken : Taken r task rest d before) :
    ((step s r).failure.isSome = true ∧ Obstacle s r) ∨
      ∃ chosen pick m fetched,
        choosePick s (r.noting task rest d) (r.itemOf task d)
          (r.agenda.uriOf task.requirement.name) = (chosen, .ok pick) ∧
        PickedStep s r (step s r) task rest d m before pick fetched := by
  cases hchoose : choosePick s (r.noting task rest d) (r.itemOf task d)
      (r.agenda.uriOf task.requirement.name) with
  | mk chosen outcome =>
    cases outcome with
    | error failure => exact .inl (htaken.obstacle hchoose)
    | ok pick =>
      rcases htaken.pickedStep hfailure hchoose with hfailed | ⟨m, fetched, hpicked⟩
      · exact .inl hfailed
      · exact .inr ⟨chosen, pick, m, fetched, rfl, hpicked⟩

theorem transition_of_taken (hfailure : r.failure = none) (htaken : Taken r task rest d before) :
    Transition s r (step s r) := by
  rcases step_picked (s := s) hfailure htaken with ⟨hfailed, hobstacle⟩ | ⟨_, _, _, _, _, hpicked⟩
  · exact .failed hfailed hobstacle
  · exact .picked hpicked

end Taken

/-- What the first task of an active run is: a broken range, a task for a given module, or one for
any other module. -/
theorem first_cases (hsound : r.agenda.IsSound) (hactive : r.isActive = true) :
    ∃ task rest, r.agenda.tasks = task :: rest ∧
      ((∃ fault, Agenda.demand task = .error fault) ∨
        (∃ d entry m, Agenda.demand task = .ok d ∧ r.agenda.find? m.name = some entry ∧
          entry.given = true ∧ entry.chosen = some m ∧ m.name = task.requirement.name) ∨
        ∃ d before, Taken r task rest d before) := by
  obtain ⟨_, task, rest, htasks⟩ := exists_task_of_isActive hactive
  refine ⟨task, rest, htasks, ?_⟩
  cases hdemand : Agenda.demand task with
  | error fault => exact .inl ⟨fault, rfl⟩
  | ok d =>
    right
    cases hfind : r.agenda.find? task.requirement.name with
    | none =>
      have hbefore : ({} : Entry) = (r.agenda.find? task.requirement.name).getD {} := by
        rw [hfind, Option.getD_none]
      exact .inr ⟨d, _, htasks, hdemand, hbefore, rfl⟩
    | some entry =>
      cases hgiven : entry.given with
      | true =>
        obtain ⟨m, hchosen, hname⟩ := hsound _ _ hfind hgiven
        exact .inl ⟨d, entry, m, rfl, hname ▸ hfind, hgiven, hchosen, hname⟩
      | false =>
        have hbefore : entry = (r.agenda.find? task.requirement.name).getD {} := by
          rw [hfind, Option.getD_some]
        exact .inr ⟨d, entry, htasks, hdemand, hbefore, hgiven⟩

theorem step_of_lost {task : Task} {rest : List Task} {fault : RangeFault}
    (htasks : r.agenda.tasks = task :: rest) (hbroken : Agenda.demand task = .error fault) :
    step s r = { r with agenda := { r.agenda with tasks := rest }, workers := r.workers - 1 } := by
  simp only [step, Agenda.pop, htasks, hbroken]

/-- Every step of an active run is one of the transitions. -/
theorem step_transition (hsound : r.agenda.IsSound) (hactive : r.isActive = true) :
    Transition s r (step s r) := by
  have hfailure := (exists_task_of_isActive hactive).1
  obtain ⟨task, rest, htasks, ⟨fault, hbroken⟩ | ⟨d, entry, m, hdemand, hfind, hgiven, hchosen,
    hname⟩ | ⟨d, before, htaken⟩⟩ := first_cases hsound hactive
  · rw [step_of_lost htasks hbroken]
    exact .lost htasks hbroken
  · exact step_given hfailure htasks hdemand hfind hgiven hchosen hname
  · exact transition_of_taken hfailure htaken

theorem Taken.before_eq {task : Task} {rest : List Task} {d : Demand} {before : Entry}
    (h : Taken r task rest d before) :
    (r.agenda.find? task.requirement.name = none ∧ before = {}) ∨
      r.agenda.find? task.requirement.name = some before := by
  have hwas := h.was
  cases hfind : r.agenda.find? task.requirement.name with
  | none =>
    rw [hfind, Option.getD_none] at hwas
    exact .inl ⟨rfl, hwas⟩
  | some e =>
    rw [hfind, Option.getD_some] at hwas
    exact .inr (congrArg some hwas.symm)

end Run

namespace Surroundings

/-- A time that the clock shows at some step. -/
def Shows (s : Surroundings) (time : Int) : Prop :=
  time = s.now ∨ ∃ n, time = s.later n

/-- The same surroundings some steps later. -/
structure Follows (t s : Surroundings) : Prop where
  versions : t.versions = s.versions
  manifests : t.manifests = s.manifests
  shows : ∀ time, t.Shows time → s.Shows time

theorem Follows.refl (s : Surroundings) : s.Follows s :=
  ⟨rfl, rfl, fun _ h => h⟩

theorem Follows.next {s t : Surroundings} (h : t.Follows s) : t.next.Follows s where
  versions := h.versions
  manifests := h.manifests
  shows := by
    rintro time (rfl | ⟨n, rfl⟩)
    · exact h.shows _ (.inr ⟨0, rfl⟩)
    · exact h.shows _ (.inr ⟨n + 1, rfl⟩)

theorem Follows.now {s t : Surroundings} (h : t.Follows s) : s.Shows t.now :=
  h.shows _ (.inl rfl)

/-- The clock stands still. -/
def Standing (s : Surroundings) : Prop :=
  ∀ n, s.later n = s.now

theorem Standing.next_eq {s : Surroundings} (h : s.Standing) : s.next = s := by
  have hlater : (fun n => s.later (n + 1)) = s.later := by
    funext n
    rw [h, h]
  rw [next, h 0, hlater]

theorem Standing.shows {s : Surroundings} {time : Int} (h : s.Standing) (hshows : s.Shows time) :
    time = s.now := by
  rcases hshows with rfl | ⟨n, rfl⟩
  · rfl
  · exact h n

/-- No time that the clock shows is later than another by more than `ttl`. -/
def Within (s : Surroundings) (ttl : Int) : Prop :=
  ∀ time other, s.Shows time → s.Shows other → time - other ≤ ttl

end Surroundings

namespace Run

variable {s t : Surroundings} {r r' start : Run}

/-- The states that a run goes through, each with the surroundings of the next step. -/
inductive Reachable (s : Surroundings) (start : Run) : Surroundings → Run → Prop
  | initial : Reachable s start s start
  | next {t : Surroundings} {r : Run} (h : Reachable s start t r) (hactive : r.isActive = true) :
      Reachable s start t.next (step t r)

theorem Reachable.follows (h : Reachable s start t r) : t.Follows s := by
  induction h with
  | initial => exact .refl s
  | next _ _ ih => exact ih.next

theorem Reachable.surroundings (h : Reachable s start t r) :
    t = { s with now := t.now, later := t.later } := by
  rw [← h.follows.versions, ← h.follows.manifests]

theorem Reachable.eq_of_standing (hclock : s.Standing) (h : Reachable s start t r) : t = s := by
  induction h with
  | initial => rfl
  | next _ _ ih => rw [ih, hclock.next_eq]

theorem Reachable.of_step (hactive : start.isActive = true)
    (h : Reachable s.next (step s start) t r) : Reachable s start t r := by
  induction h with
  | initial => exact .next .initial hactive
  | next _ hnext ih => exact .next ih hnext

theorem reachable_of_finish? {limit : Nat} (h : finish? s limit start = some r) :
    (∃ t, Reachable s start t r) ∧ r.isActive = false := by
  induction limit generalizing s start with
  | zero =>
    rw [finish?] at h
    split at h
    · cases h
    · rename_i hidle
      cases h
      exact ⟨⟨_, .initial⟩, by simpa using hidle⟩
  | succ limit ih =>
    rw [finish?] at h
    split at h
    · rename_i hactive
      obtain ⟨⟨t, hr⟩, hidle⟩ := ih h
      exact ⟨⟨t, hr.of_step hactive⟩, hidle⟩
    · rename_i hidle
      cases h
      exact ⟨⟨_, .initial⟩, by simpa using hidle⟩

theorem isSound_transition (hsound : r.agenda.IsSound) (h : Transition s r r')
    (hfailure : r'.failure = none) : r'.agenda.IsSound := by
  intro name e hfind hgiven
  cases h with
  | lost _ _ => exact hsound name e hfind hgiven
  | failed hfailed _ => simp [hfailure] at hfailed
  | given h =>
    rw [h.find] at hfind
    split at hfind
    · rename_i hname
      cases hfind
      exact ⟨_, h.chosen, hname.symm⟩
    · exact hsound name e hfind hgiven
  | picked h =>
    rw [h.find] at hfind
    split at hfind
    · cases hfind
      cases hgiven
    · exact hsound name e hfind hgiven

/-- What every transition preserves, whatever the time, holds in all states without a failure. -/
theorem invariant_of_transition {P : Run → Prop} (hsound : start.agenda.IsSound) (hstart : P start)
    (hstep : ∀ now later r r', Reachable s start { s with now, later } r → r.isActive = true → P r →
      Transition { s with now, later } r r' → r'.failure = none → P r')
    (h : Reachable s start t r) (hfailure : r.failure = none) : P r := by
  suffices hboth : r.agenda.IsSound ∧ P r from hboth.2
  induction h with
  | initial => exact ⟨hsound, hstart⟩
  | @next t r hr hactive ih =>
    obtain ⟨hs, hp⟩ := ih (exists_task_of_isActive hactive).1
    have htransition := step_transition (s := t) hs hactive
    have hclock := hr.surroundings
    generalize step t r = r' at htransition hfailure ⊢
    rw [hclock] at hr htransition
    exact ⟨isSound_transition hs htransition hfailure,
      hstep _ _ r r' hr hactive hp htransition hfailure⟩

theorem Handled.nodup_manifests {rest : List Task} {m : PinnedModule} {entry : Entry}
    {fetched : Option ModuleManifest} (h : Handled s r r' rest m entry fetched)
    (hr : r.manifests.names.Nodup) : r'.manifests.names.Nodup := by
  rw [h.manifests]
  cases fetched with
  | none => exact hr
  | some manifest => exact Ledger.nodup_names_put hr m.name manifest

theorem nodup_manifests_reachable (hsound : start.agenda.IsSound)
    (hstart : start.manifests.names.Nodup) (h : Reachable s start t r)
    (hfailure : r.failure = none) :
    r.manifests.names.Nodup := by
  refine invariant_of_transition (P := fun r => r.manifests.names.Nodup) hsound hstart ?_ h hfailure
  intro now later r r' _ _ hr htransition hnone
  cases htransition with
  | lost _ _ => exact hr
  | failed hfailed _ => simp [hnone] at hfailed
  | given h => exact h.nodup_manifests hr
  | picked h => exact h.nodup_manifests hr

theorem Transition.failure_eq_none (h : Transition s r r') (hfailure : r.failure = none)
    (hfree : ¬Obstacle s r) : r'.failure = none := by
  cases h with
  | lost _ _ => exact hfailure
  | failed _ hobstacle => exact absurd hobstacle hfree
  | given h => exact h.failure
  | picked h => exact h.failure

/-- If what every transition preserves leaves no obstacles, then no state has a failure. -/
theorem invariant_of_no_obstacle {P : Run → Prop} (hsound : start.agenda.IsSound)
    (hnone : start.failure = none) (hstart : P start)
    (hfree : ∀ now later r, P r → ¬Obstacle { s with now, later } r)
    (hstep : ∀ now later r r', P r → Transition { s with now, later } r r' → r'.failure = none →
      P r')
    (h : Reachable s start t r) : r.failure = none ∧ P r := by
  suffices hall : r.agenda.IsSound ∧ r.failure = none ∧ P r from hall.2
  induction h with
  | initial => exact ⟨hsound, hnone, hstart⟩
  | @next t r hr hactive ih =>
    obtain ⟨hs, hfailure, hp⟩ := ih
    have htransition := step_transition (s := t) hs hactive
    generalize step t r = r' at htransition ⊢
    rw [hr.surroundings] at htransition
    have hfailure' := htransition.failure_eq_none hfailure (hfree _ _ r hp)
    exact ⟨isSound_transition hs htransition hfailure', hfailure',
      hstep _ _ r r' hp htransition hfailure'⟩

end Run

namespace Goal

def tasks : Goal → List Task
  | project p => p.modules.map fun requirement => { requirement, parent := Run.topLevel p.name }
  | module m => [{ requirement := { name := m.name }, parent := Run.topLevel m.name }]

def replacements : Goal → List (String × String)
  | project p => p.replacements
  | module _ => []

def injected (given : List PinnedModule) : Goal → List PinnedModule
  | project _ => given
  | module m => given ++ [m]

end Goal

namespace Run

variable {goal : Goal} {given : List PinnedModule} {workers : Int} {cache : Cache} {start : Run}
variable {base : Path}

theorem make_ok {name version : String} {q : Requirement}
    (h : Requirement.make name version = .ok q) : q = { name, version } := by
  unfold Requirement.make Requirement.complete at h
  by_cases hname : name = ""
  · simp [hname, Checked.complain] at h
  · simpa [hname, Checked.ok] using h.symm

theorem start_ok (h : Run.start goal given workers cache base = .ok start) :
    1 ≤ workers ∧
      start =
        { agenda := .start goal.tasks goal.replacements (goal.injected given) base, cache
          workers := workers.toNat } := by
  unfold Run.start at h
  by_cases hworkers : workers < 1
  · simp [hworkers, bind, Except.bind] at h
  refine ⟨by omega, ?_⟩
  cases goal with
  | project p =>
    simpa [hworkers, bind, Except.bind, pure, Except.pure, Goal.tasks, Goal.replacements,
      Goal.injected] using h.symm
  | module m =>
    cases hmake : Requirement.make m.name "" with
    | error failure =>
      simp [hworkers, hmake, bind, Except.bind] at h
    | ok q =>
      rw [make_ok hmake] at hmake
      simpa [hworkers, hmake, bind, Except.bind, pure, Except.pure, Goal.tasks,
        Goal.replacements, Goal.injected] using h.symm

theorem isSound_start (tasks : List Task) (replacements : List (String × String))
    (given : List PinnedModule) (base : Path) :
    (Agenda.start tasks replacements given base).IsSound := by
  intro name e hfind _
  obtain ⟨m, _, hname, rfl⟩ := Agenda.find?_start name tasks replacements given base e hfind
  exact ⟨m, rfl, hname⟩

theorem isSound_of_start (h : Run.start goal given workers cache base = .ok start) :
    start.agenda.IsSound := by
  obtain ⟨_, rfl⟩ := start_ok h
  exact isSound_start _ _ _ _

theorem cache_of_start (h : Run.start goal given workers cache base = .ok start) :
    start.cache = cache := by
  obtain ⟨_, rfl⟩ := start_ok h
  rfl

end Run

end ModulePins
