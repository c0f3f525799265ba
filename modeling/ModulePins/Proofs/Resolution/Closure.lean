import ModulePins.Proofs.Resolution.Transition
import ModulePins.Resolution.InMemory

/-!
# Results are closed

When a run returns, its modules have distinct names, they contain every module that was asked for,
and with a module they contain every module that its manifest lists. The invariant says that every
module met so far is expanded, and that what its manifest lists was met or waits on the agenda.
-/

namespace ModulePins

/-- Whether a version is a range or names a branch. The one other case is a dash range with an end
that is no version. -/
def Requirement.isReadable (q : Requirement) : Bool :=
  match isConstraint q.version with
  | .error _ => false
  | .ok _ => true

theorem Agenda.demand_ok {task : Task} (h : task.requirement.isReadable = true) :
    ∃ d, demand task = .ok d := by
  unfold Requirement.isReadable at h
  unfold demand
  by_cases hempty : task.requirement.version = ""
  · simp [hempty, pure, Except.pure]
  cases hread : isConstraint task.requirement.version with
  | error fault => simp [hread] at h
  | ok isRange => cases isRange <;> simp [hempty, hread, bind, Except.bind, pure, Except.pure]

/-- If a module of its own is chosen under every name met, the result has the names met, in this
order. -/
theorem Agenda.map_name_resolved {a : Agenda}
    (h : ∀ name ∈ a.order, ∃ m, (a.find? name).bind Entry.chosen = some m ∧ m.name = name) :
    a.resolved.map PinnedModule.name = a.order := by
  unfold resolved
  generalize a.order = order at h
  induction order with
  | nil => rfl
  | cons name rest ih =>
    obtain ⟨m, hm, hname⟩ := h name (by simp)
    have htail := ih fun other ho => h other (List.mem_cons_of_mem _ ho)
    simp only [List.filterMap_cons, hm, List.map_cons, hname, htail]

/-- A store that serves `serve`, whatever it was asked for before. -/
def Surroundings.Serves (s : Surroundings) (serve : Fetch → Except Failure ModuleManifest) : Prop :=
  ∀ before fetch, (s.manifests before fetch).outcome = serve fetch

/-- An entry has a task on record. Given modules are used as they are, whatever is asked of them. -/
def Entry.Notes (e : Entry) (task : Task) : Prop :=
  e.given = true ∨ ∃ d, Agenda.demand task = .ok d ∧ d ∈ e.history

namespace Run

variable {s t : Surroundings} {r r' start : Run} {wanted : List Task}

/-- What is requested in the course of a run: the requirements taken off its agenda. -/
def Requested (s : Surroundings) (start : Run) (q : Requirement) : Prop :=
  ∃ t r task rest, Reachable s start t r ∧ r.isActive = true ∧ r.agenda.tasks = task :: rest ∧
    task.requirement = q

/-- A task that was dealt with, and whose demand the entry of its module has on record. -/
def Noted (r : Run) (task : Task) : Prop :=
  task.requirement.name ∈ r.agenda.order ∧
    ∃ e, r.agenda.find? task.requirement.name = some e ∧ e.Notes task

/-- A task that was not lost. -/
def Keeps (r : Run) (task : Task) : Prop :=
  task ∈ r.agenda.tasks ∨ r.Noted task

/-- A name that was met: `m` is chosen and expanded under it, and `manifest` is the manifest that
was served for `m`. -/
structure Met (s : Surroundings) (r : Run) (name : String) (entry : Entry) (m : PinnedModule)
    (manifest : ModuleManifest) : Prop where
  find : r.agenda.find? name = some entry
  own : m.name = name
  chosen : entry.chosen = some m
  expanded : entry.expanded = some m
  recorded : r.manifests.get? name = some manifest
  served : ∃ before, (s.manifests before m.fetch).outcome = .ok manifest
  declared : manifest.name = name
  keeps : ∀ task ∈ manifest.tasks m, r.Keeps task

/-- The invariant of runs that lose no request. -/
structure Closed (s : Surroundings) (wanted : List Task) (r : Run) : Prop where
  workers : 0 < r.workers
  nodup : r.agenda.order.Nodup
  wanted : ∀ task ∈ wanted, r.Keeps task
  met : ∀ name ∈ r.agenda.order, ∃ entry m manifest, r.Met s name entry m manifest
  recorded : ∀ name manifest, r.manifests.get? name = some manifest → name ∈ r.agenda.order
  expanded : ∀ name entry m, r.agenda.find? name = some entry → entry.expanded = some m →
    name ∈ r.agenda.order

/-- A task was dealt with: its module was settled, and its entry has on record what it had, and the
task. -/
structure Dealt (s : Surroundings) (r r' : Run) (task : Task) (rest : List Task) (m : PinnedModule)
    (entry : Entry) (fetched : Option ModuleManifest) : Prop
    extends Handled s r r' rest m entry fetched where
  first : r.agenda.tasks = task :: rest
  name : m.name = task.requirement.name
  notes : entry.Notes task
  stillNotes : ∀ e t, r.agenda.find? m.name = some e → e.Notes t → entry.Notes t

/-- A step that does not fail loses a broken range, and then changes no entry and no manifest, or
deals with the first task. -/
theorem Transition.lost_or_dealt (h : Transition s r r') (hfailure : r'.failure = none) :
    (∃ task rest fault, r.agenda.tasks = task :: rest ∧ Agenda.demand task = .error fault ∧
      r' = { r with agenda := { r.agenda with tasks := rest }, workers := r.workers - 1 }) ∨
      ∃ task rest m entry fetched, Dealt s r r' task rest m entry fetched := by
  cases h with
  | lost htasks hbroken => exact .inl ⟨_, _, _, htasks, hbroken, rfl⟩
  | failed hfailed _ => simp [hfailure] at hfailed
  | given h =>
    exact .inr ⟨_, _, _, _, _,
      { h.toHandled with
        first := h.first
        name := h.name
        notes := .inl h.given
        stillNotes := fun _ _ _ _ => .inl h.given }⟩
  | @picked _ task _ d m before pick fetched h =>
    refine .inr ⟨_, _, _, _, _,
      { h.toHandled with
        first := h.first
        name := h.own
        notes := .inr ⟨d, h.demand, by simp [settledEntry]⟩
        stillNotes := ?_ }⟩
    intro e t hfind hnotes
    have hbefore := h.was
    rw [← h.own, hfind, Option.getD_some] at hbefore
    subst hbefore
    rcases hnotes with hg | ⟨d', hd', hmem⟩
    · simp [h.notGiven] at hg
    · exact .inr ⟨d', hd', List.mem_append_left _ hmem⟩

section Step

variable {task : Task} {rest : List Task} {m : PinnedModule} {entry : Entry}
variable {fetched : Option ModuleManifest}

theorem Handled.mem_order (h : Handled s r r' rest m entry fetched) (name : String) :
    name ∈ r'.agenda.order ↔ name ∈ r.agenda.order ∨ name = m.name := by
  rw [h.order, Agenda.mem_order_meet]

theorem Dealt.keeps (h : Dealt s r r' task rest m entry fetched) {t : Task} (ht : r.Keeps t) :
    r'.Keeps t := by
  have hself : r'.agenda.find? m.name = some entry := by rw [h.find, if_pos rfl]
  rcases ht with ht | ⟨hmet, e, hfind, hnotes⟩
  · rw [h.first] at ht
    rcases List.mem_cons.mp ht with rfl | ht
    · right
      rw [Noted, ← h.name]
      exact ⟨(h.mem_order _).mpr (.inr rfl), entry, hself, h.notes⟩
    · left
      rw [h.tasks]
      exact List.mem_append_left _ ht
  · refine .inr ⟨(h.mem_order _).mpr (.inl hmet), ?_⟩
    by_cases hname : t.requirement.name = m.name
    · rw [hname] at hfind ⊢
      exact ⟨entry, hself, h.stillNotes e t hfind hnotes⟩
    · exact ⟨e, by rw [h.find, if_neg hname, hfind], hnotes⟩

theorem Dealt.met_self (h : Dealt s r r' task rest m entry fetched) (hr : r.Closed s wanted) :
    ∃ manifest, r'.Met s m.name entry m manifest := by
  have hfind : r'.agenda.find? m.name = some entry := by rw [h.find, if_pos rfl]
  cases hfetched : fetched with
  | none =>
    -- The module was expanded before, so its manifest is on record.
    obtain ⟨old, hold, hexpanded⟩ := Option.bind_eq_some_iff.mp (h.known hfetched)
    obtain ⟨e, m', manifest, hmet⟩ := hr.met _ (hr.expanded _ _ _ hold hexpanded)
    have he : e = old := Option.some.inj (hmet.find.symm.trans hold)
    have hm : m' = m := Option.some.inj (hmet.expanded.symm.trans (he ▸ hexpanded))
    subst hm
    exact ⟨manifest,
      { find := hfind
        own := rfl
        chosen := h.chosen
        expanded := h.expanded
        recorded := by
          rw [h.manifests, hfetched]
          exact hmet.recorded
        served := hmet.served
        declared := hmet.declared
        keeps := fun t ht => h.keeps (hmet.keeps t ht) }⟩
  | some manifest =>
    obtain ⟨_, hserved, hdeclared⟩ := h.fresh manifest hfetched
    exact ⟨manifest,
      { find := hfind
        own := rfl
        chosen := h.chosen
        expanded := h.expanded
        recorded := by simp [h.manifests, hfetched]
        served := ⟨_, hserved⟩
        declared := hdeclared
        keeps := by
          intro t ht
          left
          rw [h.tasks, hfetched]
          exact List.mem_append_right _ ht }⟩

theorem Dealt.met_other (h : Dealt s r r' task rest m entry fetched) {name : String} {e : Entry}
    {m' : PinnedModule} {manifest : ModuleManifest} (hne : name ≠ m.name)
    (hmet : r.Met s name e m' manifest) : r'.Met s name e m' manifest where
  find := by
    rw [h.find, if_neg hne]
    exact hmet.find
  own := hmet.own
  chosen := hmet.chosen
  expanded := hmet.expanded
  recorded := by
    rw [h.manifests]
    cases fetched with
    | none => exact hmet.recorded
    | some manifest => simp [hne, hmet.recorded]
  served := hmet.served
  declared := hmet.declared
  keeps := fun t ht => h.keeps (hmet.keeps t ht)

theorem Dealt.closed (h : Dealt s r r' task rest m entry fetched) (hr : r.Closed s wanted) :
    r'.Closed s wanted where
  workers := by
    rw [h.workers]
    exact hr.workers
  nodup := by
    rw [h.order]
    exact Agenda.nodup_order_meet _ _ hr.nodup
  wanted := fun t ht => h.keeps (hr.wanted t ht)
  met := by
    intro name hn
    by_cases hne : name = m.name
    · subst hne
      obtain ⟨manifest, hmet⟩ := h.met_self hr
      exact ⟨entry, m, manifest, hmet⟩
    · have hold := ((h.mem_order name).mp hn).resolve_right hne
      obtain ⟨e, m', manifest, hmet⟩ := hr.met name hold
      exact ⟨e, m', manifest, h.met_other hne hmet⟩
  recorded := by
    intro name manifest hget
    rw [h.mem_order]
    by_cases hne : name = m.name
    · exact .inr hne
    · left
      rw [h.manifests] at hget
      cases fetched with
      | none => exact hr.recorded name manifest hget
      | some served => exact hr.recorded name manifest (by simpa [hne] using hget)
  expanded := by
    intro name e m' hfind hexpanded
    rw [h.mem_order]
    by_cases hne : name = m.name
    · exact .inr hne
    · rw [h.find, if_neg hne] at hfind
      exact .inl (hr.expanded name e m' hfind hexpanded)

end Step

theorem closed_transition
    (hreadable : ∀ task rest, r.agenda.tasks = task :: rest → task.requirement.isReadable = true)
    (hr : r.Closed s wanted) (h : Transition s r r') (hfailure : r'.failure = none) :
    r'.Closed s wanted := by
  rcases h.lost_or_dealt hfailure with
    ⟨task, rest, fault, htasks, hbroken, _⟩ | ⟨_, _, _, _, _, hdealt⟩
  · obtain ⟨d, hd⟩ := Agenda.demand_ok (hreadable task rest htasks)
    rw [hbroken] at hd
    cases hd
  · exact hdealt.closed hr

theorem Closed.of_manifests (hr : r.Closed s wanted) (hsame : t.manifests = s.manifests) :
    r.Closed t wanted :=
  { hr with
    met := fun name hname =>
      let ⟨entry, m, manifest, hmet⟩ := hr.met name hname
      ⟨entry, m, manifest, { hmet with served := hsame ▸ hmet.served }⟩ }

theorem closed_start (tasks : List Task) (replacements : List (String × String))
    (given : List PinnedModule) (base : Path) (cache : Cache) {workers : Nat}
    (hworkers : 0 < workers) :
    Closed s tasks { agenda := .start tasks replacements given base, cache, workers } where
  workers := hworkers
  nodup := List.nodup_nil
  wanted := fun _ ht => .inl ht
  met := by
    intro name hname
    cases hname
  recorded := by
    intro name manifest hget
    cases hget
  expanded := by
    intro name entry m hfind hexpanded
    obtain ⟨_, _, _, rfl⟩ := Agenda.find?_start name tasks replacements given base entry hfind
    cases hexpanded

/-- Runs that lose no request are closed. -/
theorem closed_reachable {tasks : List Task} {replacements : List (String × String)}
    {given : List PinnedModule} {base : Path} {cache : Cache} {workers : Nat}
    (hworkers : 0 < workers)
    (hstart : start = { agenda := .start tasks replacements given base, cache, workers })
    (hreadable : ∀ q, Requested s start q → q.isReadable = true)
    (h : Reachable s start t r) (hfailure : r.failure = none) : r.Closed s tasks := by
  subst hstart
  refine invariant_of_transition (isSound_start tasks replacements given base)
    (closed_start tasks replacements given base cache hworkers) ?_ h hfailure
  intro now later r r' hr hactive hclosed htransition hnone
  refine (closed_transition (s := { s with now, later }) ?_ (hclosed.of_manifests rfl) htransition
    hnone).of_manifests rfl
  intro task rest htasks
  exact hreadable _ ⟨_, r, task, rest, hr, hactive, htasks, rfl⟩

/-- Nothing waits on the agenda of a run that ended without a failure and with a worker left. -/
theorem tasks_eq_nil_of_idle (hidle : r.isActive = false) (hfailure : r.failure = none)
    (hworkers : 0 < r.workers) : r.agenda.tasks = [] := by
  have hne : (r.workers != 0) = true := by simp; omega
  simpa [isActive, hfailure, hne] using hidle

theorem Keeps.noted {task : Task} (h : r.Keeps task) (hdone : r.agenda.tasks = []) :
    r.Noted task := by
  rcases h with h | h
  · simp [hdone] at h
  · exact h

theorem outcome_ok {modules : List PinnedModule} (h : r.outcome = .ok modules) :
    r.failure = none ∧ modules = r.agenda.resolved := by
  unfold outcome at h
  split at h
  · cases h
  · rename_i hfailure
    exact ⟨hfailure, (Except.ok.inj h).symm⟩

theorem ok_of_toOption {modules : List PinnedModule} (h : r.outcome.toOption = some modules) :
    r.outcome = .ok modules := by
  cases hreturn : r.outcome with
  | error failure => simp [hreturn, Except.toOption] at h
  | ok modules => simpa [hreturn, Except.toOption] using h

theorem exists_of_any {o : Option Run} {P : Run → Prop} [DecidablePred P]
    (h : (o.any fun r => decide (P r)) = true) : ∃ r, o = some r ∧ P r := by
  obtain ⟨hends, hp⟩ := (Option.any_eq_true_iff_get _ _).mp h
  exact ⟨o.get hends, (Option.some_get hends).symm, of_decide_eq_true hp⟩

theorem exists_returned {limit : Nat} {modules : List PinnedModule}
    (h : ((finish? s limit start).bind fun r => r.outcome.toOption) = some modules) :
    ∃ r, finish? s limit start = some r ∧ r.outcome = .ok modules := by
  obtain ⟨r, hrun, hmodules⟩ := Option.bind_eq_some_iff.mp h
  exact ⟨r, hrun, ok_of_toOption hmodules⟩

theorem Closed.map_name_resolved (hr : r.Closed s wanted) :
    r.agenda.resolved.map PinnedModule.name = r.agenda.order := by
  apply Agenda.map_name_resolved
  intro name hname
  obtain ⟨entry, m, manifest, hmet⟩ := hr.met name hname
  exact ⟨m, by rw [hmet.find, Option.bind_some, hmet.chosen], hmet.own⟩

theorem Closed.met_of_mem_resolved (hr : r.Closed s wanted) {m : PinnedModule}
    (hm : m ∈ r.agenda.resolved) : ∃ entry manifest, r.Met s m.name entry m manifest := by
  obtain ⟨name, hname, hchosen⟩ := List.mem_filterMap.mp hm
  obtain ⟨entry, m', manifest, hmet⟩ := hr.met name hname
  rw [hmet.find, Option.bind_some, hmet.chosen, Option.some.injEq] at hchosen
  subst hchosen
  exact ⟨entry, manifest, hmet.own.symm ▸ hmet⟩

theorem requirements_invariant {P : Requirement → Prop} (hsound : start.agenda.IsSound)
    (hfirst : ∀ task ∈ start.agenda.tasks, P task.requirement)
    (hserved : ∀ before fetch manifest, (s.manifests before fetch).outcome = .ok manifest →
      ∀ q ∈ manifest.modules, P q)
    (h : Reachable s start t r) (hfailure : r.failure = none) :
    ∀ task ∈ r.agenda.tasks, P task.requirement := by
  refine invariant_of_transition (P := fun r => ∀ task ∈ r.agenda.tasks, P task.requirement)
    hsound hfirst ?_ h hfailure
  intro now later r r' _ _ hr htransition hnone t ht
  cases htransition with
  | lost htasks _ => exact hr t (by rw [htasks]; exact List.mem_cons_of_mem _ ht)
  | failed hfailed _ => simp [hnone] at hfailed
  | given h => exact h.requirements h.first hserved hr t ht
  | picked h => exact h.requirements h.first hserved hr t ht

theorem requested_invariant {P : Requirement → Prop} (hsound : start.agenda.IsSound)
    (hfirst : ∀ task ∈ start.agenda.tasks, P task.requirement)
    (hserved : ∀ before fetch manifest, (s.manifests before fetch).outcome = .ok manifest →
      ∀ q ∈ manifest.modules, P q)
    (q : Requirement) (h : Requested s start q) : P q := by
  obtain ⟨t, r, task, rest, hr, hactive, htasks, rfl⟩ := h
  exact requirements_invariant hsound hfirst hserved hr (exists_task_of_isActive hactive).1 task
    (by simp [htasks])

theorem requested_isReadable {registry : Registry} {failing : Option Failure} {shelf : Shelf}
    {now : Int} {later : Nat → Int} (hsound : start.agenda.IsSound)
    (hfirst : ∀ task ∈ start.agenda.tasks, task.requirement.isReadable = true)
    (hshelf : ∀ item ∈ shelf.items, ∀ q ∈ item.manifest.modules, q.isReadable = true)
    (q : Requirement) (h : Requested (.inMemory registry failing shelf now later) start q) :
    q.isReadable = true := by
  refine requested_invariant (P := fun q => q.isReadable = true) hsound hfirst ?_ q h
  intro before fetch manifest hserved
  obtain ⟨item, hitem, rfl⟩ := Shelf.exists_item_of_manifest hserved
  exact hshelf item hitem

/-- A run that returns has modules with distinct names; every name that was asked for is among them;
exactly they have a manifest; and the manifest of each is the one that the store serves for it,
declares its name, and lists only names that are among them. -/
theorem resolved_closed {goal : Goal} {given : List PinnedModule} {cache : Cache} {base : Path}
    {limit : Nat} {modules : List PinnedModule} {serve : Fetch → Except Failure ModuleManifest}
    (hserve : s.Serves serve)
    (hstart : Run.start goal given 1 cache base = .ok start)
    (hreadable : ∀ q, Requested s start q → q.isReadable = true)
    (hrun : finish? s limit start = some r) (hreturn : r.outcome = .ok modules) :
    (modules.map PinnedModule.name).Nodup ∧
      (∀ task ∈ goal.tasks, task.requirement.name ∈ modules.map PinnedModule.name) ∧
      (∀ name, name ∈ r.manifests.names ↔ name ∈ modules.map PinnedModule.name) ∧
      ∀ m ∈ modules, ∃ manifest, r.manifests.get? m.name = some manifest ∧
        serve m.fetch = .ok manifest ∧ manifest.name = m.name ∧
        ∀ q ∈ manifest.modules, q.name ∈ modules.map PinnedModule.name := by
  obtain ⟨⟨_, hreach⟩, hidle⟩ := reachable_of_finish? hrun
  obtain ⟨hfailure, rfl⟩ := outcome_ok hreturn
  obtain ⟨_, hstart⟩ := start_ok hstart
  have hr := closed_reachable Nat.one_pos hstart hreadable hreach hfailure
  have hdone := tasks_eq_nil_of_idle hidle hfailure hr.workers
  -- Nothing waits any more, so what was not lost was dealt with.
  have hmem : ∀ task, r.Keeps task → task.requirement.name ∈ r.agenda.order :=
    fun task hkeeps => (hkeeps.noted hdone).1
  rw [hr.map_name_resolved]
  refine ⟨hr.nodup, ?_, ?_, ?_⟩
  · intro task ht
    exact hmem task (hr.wanted task ht)
  · intro name
    rw [Ledger.mem_names]
    constructor
    · rintro ⟨manifest, hget⟩
      exact hr.recorded name manifest hget
    · intro hn
      obtain ⟨_, _, manifest, hmet⟩ := hr.met name hn
      exact ⟨manifest, hmet.recorded⟩
  · intro m hm
    obtain ⟨_, manifest, hmet⟩ := hr.met_of_mem_resolved hm
    obtain ⟨before, hserved⟩ := hmet.served
    refine ⟨manifest, hmet.recorded, (hserve before m.fetch).symm.trans hserved, hmet.declared, ?_⟩
    intro q hq
    exact hmem _ (hmet.keeps _ (List.mem_map_of_mem hq))

/-- Two modules that need each other. What `b` asks of `a` takes `a` back to an earlier version. -/
def cycleShelf : Shelf where
  items := [
    { uri := "https://a", manifest := { name := "a", modules := [{ name := "b" }] } },
    { uri := "https://b"
      manifest := { name := "b", modules := [{ name := "a", version := "^1.0.0" }] } }]

def cycleRegistry : Registry where
  tags := [("https://a", ["1.0.0", "1.1.0", "2.0.0"]), ("https://b", ["1.0.0"])]

def cycleProject : Project where
  name := "svc"
  modules := [{ name := "a", version := ">=1.0.0" }]

def cycleModules : List PinnedModule :=
  [{ name := "a", uri := "https://a", version := "1.1.0" },
    { name := "b", uri := "https://b", version := "1.0.0" }]

def cycleStart : Run where
  agenda := .start (Goal.project cycleProject).tasks [] []
  cache := { root := "/cache" }

theorem cycle_starts :
    Run.start (.project cycleProject) [] 1 { root := "/cache" } = .ok cycleStart :=
  rfl

theorem cycle_returns :
    ∃ r, finish? (.inMemory cycleRegistry none cycleShelf 0) 10 cycleStart = some r ∧
      r.outcome = .ok cycleModules := by
  apply exists_returned
  decide +kernel

theorem cycle_isReadable (q : Requirement)
    (h : Requested (.inMemory cycleRegistry none cycleShelf 0) cycleStart q) :
    q.isReadable = true := by
  refine requested_isReadable (isSound_start _ _ _ _) ?_ ?_ q h
  · decide +kernel
  · decide +kernel

theorem cycle_serves (now : Int) :
    (Surroundings.inMemory cycleRegistry none cycleShelf now).Serves
      fun fetch => cycleShelf.manifest fetch.uri fetch.version :=
  fun _ _ => rfl

theorem resolved_closed_cycle :
    ∃ r, finish? (.inMemory cycleRegistry none cycleShelf 0) 10 cycleStart = some r ∧
      r.outcome = .ok cycleModules ∧
      (∀ name, name ∈ r.manifests.names ↔ name ∈ ["a", "b"]) ∧
      ∀ m ∈ cycleModules, ∃ manifest, r.manifests.get? m.name = some manifest ∧
        cycleShelf.manifest m.uri m.version = .ok manifest ∧ manifest.name = m.name ∧
        ∀ q ∈ manifest.modules, q.name ∈ ["a", "b"] := by
  obtain ⟨r, hrun, hreturn⟩ := cycle_returns
  obtain ⟨_, _, hnames, hmodules⟩ :=
    resolved_closed (cycle_serves 0) cycle_starts cycle_isReadable hrun hreturn
  exact ⟨r, hrun, hreturn, hnames, hmodules⟩

end Run

end ModulePins
