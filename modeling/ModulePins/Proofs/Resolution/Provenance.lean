import ModulePins.Proofs.Resolution.Turn

/-!
# Where demands, queries and conflicts come from

The history of a module is what the tasks for it asked, in the order in which they were taken off
the agenda, and every task was put there by the project or by a manifest that was fetched. A
conflict that the run finds itself reports the whole history of the module. A conflict that the
version source or the manifest store comes back with is passed on as it is.
-/

namespace ModulePins

/-- The module over which a failure is a conflict, and the demands that it reports. -/
def Failure.conflict? : Failure → Option (String × History)
  | constraintConflict name history => some (name, history)
  | channelConflict name _ _ _ _ history => some (name, history)
  | _ => none

/-- What goes wrong with the cache is never a conflict. -/
theorem Cache.accident_of_get {c : Cache} {now : Int} {uri channel : String} {failure : Failure}
    (h : (c.get now uri channel).outcome = .error failure) :
    ∃ cause, failure = .accident cause := by
  unfold Cache.get at h
  split at h
  · cases h
  · split at h
    · cases h
      exact ⟨_, rfl⟩
    · split at h
      · cases h
        exact ⟨_, rfl⟩
      · unfold Cache.readRecord at h
        split at h
        · split at h <;> cases h
        · cases h
          exact ⟨_, rfl⟩
        · cases h

/-- The demands that tasks make on a module, in the order of the tasks. -/
def demandsOn (name : String) (tasks : List Task) : History :=
  tasks.filterMap fun task =>
    if task.requirement.name = name then (Agenda.demand task).toOption else none

section DemandsOn

variable {name : String} {task : Task}

theorem demandsOn_append (name : String) (tasks more : List Task) :
    demandsOn name (tasks ++ more) = demandsOn name tasks ++ demandsOn name more :=
  List.filterMap_append

theorem demandsOn_of_ok {d : Demand} (h : Agenda.demand task = .ok d) :
    demandsOn task.requirement.name [task] = [d] := by
  simp [demandsOn, h, Except.toOption]

theorem demandsOn_of_error {fault : RangeFault} (h : Agenda.demand task = .error fault) :
    demandsOn name [task] = [] := by
  simp [demandsOn, h, Except.toOption]

theorem demandsOn_of_ne (h : task.requirement.name ≠ name) : demandsOn name [task] = [] := by
  simp [demandsOn, h]

end DemandsOn

namespace Run

variable {s t : Surroundings} {r r' start : Run}

/-- A run came to the state `r` by taking `tasks` off its agenda, one after the other. -/
inductive Consumed (s : Surroundings) (start : Run) : List Task → Surroundings → Run → Prop
  | initial : Consumed s start [] s start
  | next {tasks rest : List Task} {task : Task} {t : Surroundings} {r : Run}
      (h : Consumed s start tasks t r) (hactive : r.isActive = true)
      (hfirst : r.agenda.tasks = task :: rest) :
      Consumed s start (tasks ++ [task]) t.next (step t r)

theorem Reachable.consumed (h : Reachable s start t r) : ∃ tasks, Consumed s start tasks t r := by
  induction h with
  | initial => exact ⟨[], .initial⟩
  | next _ hactive ih =>
    obtain ⟨tasks, ih⟩ := ih
    obtain ⟨_, task, rest, hfirst⟩ := exists_task_of_isActive hactive
    exact ⟨tasks ++ [task], .next ih hactive hfirst⟩

theorem Consumed.reachable {tasks : List Task} (h : Consumed s start tasks t r) :
    Reachable s start t r := by
  induction h with
  | initial => exact .initial
  | next _ hactive _ ih => exact .next ih hactive

/-- Who asked for a module: the project, or a module whose manifest was fetched and lists it. -/
inductive Justified (s : Surroundings) (goal : Goal) (r : Run) (task : Task) : Prop
  | topLevel {p : Project} (hgoal : goal = .project p) (hlisted : task.requirement ∈ p.modules)
      (hparent : task.parent = Run.topLevel p.name)
  | listed {m : PinnedModule} {manifest : ModuleManifest} {before : List Fetch}
      (hfetched : before ++ [m.fetch] <+: r.fetches)
      (hserved : (s.manifests before m.fetch).outcome = .ok manifest)
      (hname : manifest.name = m.name) (hlisted : task.requirement ∈ manifest.modules)
      (hparent : task.parent = m.label)

/-- The version source or the manifest store came back with the failure when it was asked last. -/
def PassedOn (s : Surroundings) (r : Run) (failure : Failure) : Prop :=
  (∃ asked q, r.queries = asked ++ [q] ∧ s.versions asked q = .error failure) ∨
    ∃ asked fetch, r.fetches = asked ++ [fetch] ∧ (s.manifests asked fetch).outcome = .error failure

/-- A failure reports a conflict that a task brought about, with the whole history of its module. -/
inductive Reports (r : Run) (task : Task) (d : Demand) : Failure → Prop
  | constraints :
      Reports r task d
        (.constraintConflict task.requirement.name (r.agenda.history task.requirement.name))
  | channels {pinned : Demand}
      (hpinned : (r.agenda.history task.requirement.name).pinning? = some pinned) :
      Reports r task d
        (.channelConflict task.requirement.name pinned.channel pinned.parent d.channel task.parent
          (r.agenda.history task.requirement.name))

theorem Reports.conflict? {task : Task} {d : Demand} {failure : Failure}
    (h : Reports r task d failure) :
    failure.conflict? = some (task.requirement.name, r.agenda.history task.requirement.name) := by
  cases h <;> rfl

section Turn

variable {task : Task} {rest : List Task} {name : String}

theorem Taken.history {d : Demand} {before : Entry} (h : Taken r task rest d before) :
    r.agenda.history task.requirement.name = before.history := by
  rw [h.was, Agenda.history]
  cases r.agenda.find? task.requirement.name <;> rfl

theorem Taken.history_noting_eq {d : Demand} {before : Entry} (h : Taken r task rest d before)
    (name : String) :
    (r.noting task rest d).agenda.history name = r.agenda.history name ++ demandsOn name [task] := by
  by_cases hname : task.requirement.name = name
  · subst hname
    rw [h.history_noting, h.history, demandsOn_of_ok h.demand]
  · rw [demandsOn_of_ne hname, List.append_nil, Agenda.history, h.find?_noting,
      if_neg (Ne.symm hname), Agenda.history]

theorem Turn.history (h : Turn s r r') (hfirst : r.agenda.tasks = task :: rest)
    (hnew : ∀ e, r.agenda.find? name = some e → e.given = false) :
    r'.agenda.history name = r.agenda.history name ++ demandsOn name [task] := by
  cases h with
  | lost htasks hbroken =>
    rw [hfirst, List.cons.injEq] at htasks
    rw [htasks.1, demandsOn_of_error hbroken, List.append_nil]
    rfl
  | given htasks _ hfind hgiven _ hown h =>
    rw [hfirst, List.cons.injEq] at htasks
    have hne : task.requirement.name ≠ name := by
      rintro rfl
      rw [← htasks.1] at hown
      simp [hnew _ (hown ▸ hfind)] at hgiven
    rw [h.history, demandsOn_of_ne hne, List.append_nil, Agenda.history, Agenda.find?_meet]
    rfl
  | refused htaken _ =>
    obtain ⟨rfl, rfl⟩ := List.cons.inj (hfirst.symm.trans htaken.first)
    exact htaken.history_noting_eq name
  | @picked _ _ _ before pick cache queries notices m _ htaken hshape _ h =>
    obtain ⟨rfl, rfl⟩ := List.cons.inj (hfirst.symm.trans htaken.first)
    have hown : m.name = task.requirement.name := congrArg PinnedModule.name hshape
    rw [h.history, ← htaken.history_noting_eq name, Agenda.history, Agenda.history,
      htaken.find?_withChosen cache queries notices hown pick name, htaken.find?_noting]
    split <;> rfl

theorem tasks_noting (r : Run) (task : Task) (rest : List Task) (d : Demand) :
    (r.noting task rest d).agenda.tasks = rest :=
  Agenda.tasks_recorded _ _ _

theorem Expansion.mem_tasks {m : PinnedModule} (h : Expansion s r m r') {t : Task}
    (ht : t ∈ r'.agenda.tasks) :
    t ∈ r.agenda.tasks ∨ ∃ manifest, r'.fetches = r.fetches ++ [m.fetch] ∧
      (s.manifests r.fetches m.fetch).outcome = .ok manifest ∧ manifest.name = m.name ∧
        t ∈ manifest.tasks m := by
  cases h with
  | known _ => exact .inl ht
  | failed _ _ => exact .inl ht
  | fetched _ hserved hname =>
    rcases List.mem_append.mp ht with ht | ht
    · exact .inl ht
    · exact .inr ⟨_, rfl, hserved, hname, ht⟩

/-- Tasks are added from the manifest that a turn fetches, and from nowhere else. -/
theorem Turn.mem_tasks (h : Turn s r r') {t : Task} (ht : t ∈ r'.agenda.tasks) :
    t ∈ r.agenda.tasks ∨ ∃ m manifest, r'.fetches = r.fetches ++ [m.fetch] ∧
      (s.manifests r.fetches m.fetch).outcome = .ok manifest ∧ manifest.name = m.name ∧
        t ∈ manifest.tasks m := by
  cases h with
  | lost htasks _ =>
    rw [htasks]
    exact .inl (List.mem_cons_of_mem _ ht)
  | @given _ ts _ _ m _ htasks _ _ _ _ _ h =>
    rcases h.mem_tasks ht with ht | ⟨manifest, hlisted⟩
    · rw [Agenda.tasks_meet] at ht
      rw [htasks]
      exact .inl (List.mem_cons_of_mem _ ht)
    · exact .inr ⟨m, manifest, hlisted⟩
  | @refused first ts d _ _ _ _ htaken _ =>
    have ht : t ∈ (r.noting first ts d).agenda.tasks := ht
    rw [tasks_noting] at ht
    rw [htaken.first]
    exact .inl (List.mem_cons_of_mem _ ht)
  | @picked first ts d _ _ _ _ _ m _ htaken _ _ h =>
    rcases h.mem_tasks ht with ht | ⟨manifest, hlisted⟩
    · have ht : t ∈ (r.noting first ts d).agenda.tasks := ht
      rw [tasks_noting] at ht
      rw [htaken.first]
      exact .inl (List.mem_cons_of_mem _ ht)
    · exact .inr ⟨m, manifest, hlisted⟩

theorem Turn.fetches (h : Turn s r r') : r.fetches <+: r'.fetches := by
  cases h with
  | lost _ _ => exact List.prefix_rfl
  | given _ _ _ _ _ _ h => exact h.fetches
  | refused _ _ => exact List.prefix_rfl
  | picked _ _ _ h => exact h.fetches

/-- In one turn the version source is asked once at most, for the whole history of the module of the
first task. -/
theorem Turn.queries (h : Turn s r r') (hfirst : r.agenda.tasks = task :: rest) :
    r'.queries = r.queries ∨ ∃ d before, Taken r task rest d before ∧
      r'.queries = r.queries ++
        [History.query (r.agenda.history task.requirement.name ++ demandsOn task.requirement.name [task])
          (r.agenda.uriOf task.requirement.name)] := by
  cases h with
  | lost _ _ => exact .inl rfl
  | given _ _ _ _ _ _ h => exact .inl h.queries
  | refused htaken hrefused =>
    obtain ⟨rfl, rfl⟩ := List.cons.inj (hfirst.symm.trans htaken.first)
    rw [htaken.history, demandsOn_of_ok htaken.demand]
    cases hrefused with
    | conflict _ _ _ => exact .inl rfl
    | unread _ _ _ => exact .inl rfl
    | unanswered _ _ _ => exact .inr ⟨_, _, htaken, rfl⟩
    | unwritten _ _ => exact .inr ⟨_, _, htaken, rfl⟩
  | picked htaken _ hpicked h =>
    obtain ⟨rfl, rfl⟩ := List.cons.inj (hfirst.symm.trans htaken.first)
    rw [h.queries, htaken.history, demandsOn_of_ok htaken.demand]
    cases hpicked with
    | stays _ _ => exact .inl rfl
    | here _ _ => exact .inl rfl
    | cached _ _ _ _ => exact .inl rfl
    | asked _ _ _ _ _ _ => exact .inr ⟨_, _, htaken, rfl⟩

/-- Only a conflict that the manifest store comes back with ends the expansion of a module. -/
theorem Expansion.passedOn {m : PinnedModule} {failure : Failure} (h : Expansion s r m r')
    (hnone : r.failure = none) (hfailure : r'.failure = some failure)
    (hconflict : failure.conflict?.isSome = true) : PassedOn s r' failure := by
  cases h with
  | known _ => simp [hnone] at hfailure
  | failed _ hunfetched =>
    cases hfailure
    cases hunfetched with
    | @unserved cause h =>
      cases cause with
      | accident _ => cases hconflict
      | _ => exact .inr ⟨_, _, rfl, h⟩
    | misnamed _ _ => cases hconflict
  | fetched _ _ _ =>
    have hmarked : (r.marked m).failure = none := hnone
    simp [hmarked] at hfailure

/-- A conflict without a pick is reported for the whole history, or passed on. -/
theorem Taken.reports {d : Demand} {before : Entry} {failure : Failure} {queries : List Query}
    {notices : List Notice} (h : Taken r task rest d before)
    (hrefused : Refused s r.cache r.queries (r.itemOf task d)
      (r.agenda.uriOf task.requirement.name) before.pick (before.history ++ [d]) failure queries)
    (hconflict : failure.conflict?.isSome = true) :
    PassedOn s { r.noting task rest d with queries, notices, failure := some failure } failure ∨
      Reports { r.noting task rest d with queries, notices, failure := some failure } task d
        failure := by
  have hhistory : ({ r.noting task rest d with queries, notices, failure := some failure } :
      Run).agenda.history task.requirement.name = before.history ++ [d] := h.history_noting
  cases hrefused with
  | conflict hpinned _ _ =>
    rw [← hhistory] at hpinned ⊢
    exact .inr (.channels hpinned)
  | unread _ _ hget =>
    obtain ⟨cause, rfl⟩ := Cache.accident_of_get hget
    cases cause <;> cases hconflict
  | @unanswered cause _ _ hanswer =>
    cases cause with
    | versionNotFound _ =>
      right
      rw [versionFailure, ← hhistory]
      exact .constraints
    | accident _ => cases hconflict
    | _ => exact .inl (.inl ⟨_, _, rfl, hanswer⟩)
  | unwritten _ _ => cases hconflict

theorem Turn.reports {failure : Failure} (h : Turn s r r') (hfirst : r.agenda.tasks = task :: rest)
    (hnone : r.failure = none) (hfailure : r'.failure = some failure)
    (hconflict : failure.conflict?.isSome = true) :
    PassedOn s r' failure ∨ ∃ d before, Taken r task rest d before ∧ Reports r' task d failure := by
  cases h with
  | lost _ _ => simp [hnone] at hfailure
  | given _ _ _ _ _ _ h => exact .inl (h.passedOn hnone hfailure hconflict)
  | refused htaken hrefused =>
    obtain ⟨rfl, rfl⟩ := List.cons.inj (hfirst.symm.trans htaken.first)
    cases hfailure
    exact (htaken.reports hrefused hconflict).imp_right fun hreports => ⟨_, _, htaken, hreports⟩
  | picked _ _ _ h => exact .inl (h.passedOn hnone hfailure hconflict)

end Turn

section Traced

variable {goal : Goal} {given : List PinnedModule} {cache : Cache} {base : Path}
variable {tasks : List Task}

/-- Where everything in a state comes from that was reached by taking `tasks` off the agenda.
`names` are those of the given modules. -/
structure Traced (s : Surroundings) (goal : Goal) (names : List String) (tasks : List Task)
    (r : Run) :
    Prop where
  history : ∀ name, name ∉ names → r.agenda.history name = demandsOn name tasks
  justified : ∀ task ∈ tasks, task.requirement.name ∉ names → Justified s goal r task
  waiting : ∀ task ∈ r.agenda.tasks, task.requirement.name ∉ names → Justified s goal r task
  queries : ∀ q ∈ r.queries, ∃ before task after, tasks = before ++ task :: after ∧
    task.requirement.name ∉ names ∧
      q = (demandsOn task.requirement.name (before ++ [task])).query
        (r.agenda.uriOf task.requirement.name)
  conflicts : ∀ failure name history, r.failure = some failure →
    failure.conflict? = some (name, history) →
      PassedOn s r failure ∨ history = r.agenda.history name ∧ name ∉ names ∧
        ∃ before task d, tasks = before ++ [task] ∧ task.requirement.name = name ∧
          Agenda.demand task = .ok d ∧ history.getLast? = some d ∧ Reports r task d failure

theorem Justified.mono {task : Task} (h : Justified s goal r task)
    (hfetches : r.fetches <+: r'.fetches) :
    Justified s goal r' task := by
  cases h with
  | topLevel hgoal hlisted hparent => exact .topLevel hgoal hlisted hparent
  | listed hfetched hserved hname hlisted hparent =>
    exact .listed (hfetched.trans hfetches) hserved hname hlisted hparent

theorem Traced.of_eq {names : List String} (h : Traced s goal names tasks r)
    (hversions : t.versions = s.versions) (hmanifests : t.manifests = s.manifests) :
    Traced t goal names tasks r := by
  have hjustified : ∀ task, Justified s goal r task → Justified t goal r task := by
    intro task hjustified
    cases hjustified with
    | topLevel hgoal hlisted hparent => exact .topLevel hgoal hlisted hparent
    | listed hfetched hserved hname hlisted hparent =>
      exact .listed hfetched (hmanifests ▸ hserved) hname hlisted hparent
  have hpassed : ∀ failure, PassedOn s r failure → PassedOn t r failure := by
    intro failure hpassed
    rw [PassedOn, hversions, hmanifests]
    exact hpassed
  exact
    { h with
      justified := fun task htask hname => hjustified task (h.justified task htask hname)
      waiting := fun task htask hname => hjustified task (h.waiting task htask hname)
      conflicts := fun failure name history hfailure hconflict =>
        (h.conflicts failure name history hfailure hconflict).imp_left (hpassed failure) }

theorem traced_start {replacements : List (String × String)} {cache : Cache} {workers : Nat} :
    Traced s goal ((goal.injected given).map PinnedModule.name) []
      { agenda := .start goal.tasks replacements (goal.injected given) base, cache, workers } where
  history := by
    intro name hname
    have hfind : (Agenda.start goal.tasks replacements (goal.injected given) base).find? name =
        none := by
      cases hfind : (Agenda.start goal.tasks replacements (goal.injected given) base).find? name with
      | none => rfl
      | some e =>
        obtain ⟨m, hm, rfl, _⟩ := Agenda.find?_start name _ _ _ _ e hfind
        exact absurd (List.mem_map_of_mem hm) hname
    rw [Agenda.history, hfind]
    rfl
  justified := by simp
  waiting := by
    intro task htask hname
    cases goal with
    | project p =>
      obtain ⟨requirement, hlisted, rfl⟩ := List.mem_map.mp htask
      exact .topLevel rfl hlisted rfl
    | module m =>
      obtain rfl := List.mem_singleton.mp htask
      exact absurd (by simp [Goal.injected]) hname
  queries := by simp
  conflicts := by simp

theorem Turn.justified {names : List String} (h : Turn s r r')
    (hwaiting : ∀ task ∈ r.agenda.tasks, task.requirement.name ∉ names → Justified s goal r task)
    {t : Task} (ht : t ∈ r'.agenda.tasks) (hname : t.requirement.name ∉ names) :
    Justified s goal r' t := by
  rcases h.mem_tasks ht with ht | ⟨m, manifest, hfetches, hserved, hown, ht⟩
  · exact (hwaiting t ht hname).mono h.fetches
  · obtain ⟨requirement, hlisted, rfl⟩ := List.mem_map.mp ht
    exact .listed (hfetches ▸ List.prefix_rfl) hserved hown hlisted rfl

theorem Traced.turn {names : List String} {task : Task} {rest : List Task}
    (hr : r.Traced s goal names tasks) (hgivenAmong : r.GivenAmong names)
    (hgivenAll : r.GivenAll names) (hnone : r.failure = none)
    (hfirst : r.agenda.tasks = task :: rest) (h : Turn s r r') :
    r'.Traced s goal names (tasks ++ [task]) := by
  have hnew : ∀ name, name ∉ names → ∀ e, r.agenda.find? name = some e → e.given = false :=
    fun name hname e hfind => by simpa using mt (hgivenAmong name e hfind) hname
  have hhistory : ∀ name, name ∉ names →
      r'.agenda.history name = demandsOn name (tasks ++ [task]) := by
    intro name hname
    rw [h.history hfirst (hnew name hname), hr.history name hname, demandsOn_append]
  refine ⟨hhistory, ?_, fun t ht hname => h.justified hr.waiting ht hname, ?_, ?_⟩
  · intro t ht hname
    rcases List.mem_append.mp ht with ht | ht
    · exact (hr.justified t ht hname).mono h.fetches
    · obtain rfl := List.mem_singleton.mp ht
      have hwaiting : t ∈ r.agenda.tasks := hfirst ▸ List.mem_cons_self
      exact (hr.waiting t hwaiting hname).mono h.fetches
  · -- A query made earlier keeps its place among the tasks, since tasks only come behind.
    have hearlier : ∀ q ∈ r.queries, ∃ before t after, tasks ++ [task] = before ++ t :: after ∧
        t.requirement.name ∉ names ∧ q = (demandsOn t.requirement.name (before ++ [t])).query
          (r'.agenda.uriOf t.requirement.name) := by
      intro q hq
      obtain ⟨before, t, after, rfl, hname, hquery⟩ := hr.queries q hq
      rw [← Agenda.uriOf_congr h.replacements] at hquery
      exact ⟨before, t, after ++ [task], by simp, hname, hquery⟩
    rcases h.queries hfirst with hsame | ⟨d, _, htaken, hasked⟩
    · rwa [hsame]
    · intro q hq
      rw [hasked] at hq
      rcases List.mem_append.mp hq with hq | hq
      · exact hearlier q hq
      · have hname := htaken.not_mem hgivenAll
        rw [List.mem_singleton.mp hq, hr.history _ hname, ← demandsOn_append,
          ← Agenda.uriOf_congr h.replacements]
        exact ⟨tasks, task, [], rfl, hname, rfl⟩
  · intro failure name history hfailure hconflict
    have hsome : failure.conflict?.isSome = true := by rw [hconflict, Option.isSome_some]
    rcases h.reports hfirst hnone hfailure hsome with hpassed | ⟨d, _, htaken, hreports⟩
    · exact .inl hpassed
    · have hname := htaken.not_mem hgivenAll
      rw [hreports.conflict?, Option.some.injEq, Prod.mk.injEq] at hconflict
      obtain ⟨rfl, rfl⟩ := hconflict
      refine .inr ⟨rfl, hname, tasks, task, d, rfl, rfl, htaken.demand, ?_, hreports⟩
      rw [hhistory _ hname, demandsOn_append, demandsOn_of_ok htaken.demand,
        List.getLast?_concat]

theorem Consumed.traced (hstart : Run.start goal given 1 cache base = .ok start)
    (h : Consumed s start tasks t r) :
    r.Traced s goal ((goal.injected given).map PinnedModule.name) tasks := by
  induction h with
  | initial =>
    obtain ⟨_, rfl⟩ := start_ok hstart
    exact traced_start
  | next h hactive hfirst ih =>
    have hnone := (exists_task_of_isActive hactive).1
    have hreach := h.reachable
    have hsound := isSound_reachable (isSound_of_start hstart) hreach hnone
    obtain ⟨hversions, hmanifests, _⟩ := hreach.follows
    have hturned := (ih.of_eq hversions hmanifests).turn (givenAmong_reachable hstart hreach)
      (givenAll_reachable hstart hreach) hnone hfirst (step_turn hsound hactive)
    exact hturned.of_eq hversions.symm hmanifests.symm

/-- In every state of a run, which was reached by taking some tasks off the agenda one after the
other: the history of a module that was not given consists of what these tasks asked of it; each of
the tasks comes from the project, or from a manifest that was fetched; every query is for what the
tasks up to then asked of one module; and a conflict is one that the version source or the manifest
store came back with, or reports the whole history of the module of the last task. -/
theorem requests_traced (hstart : Run.start goal given 1 cache base = .ok start)
    (h : Reachable s start t r) :
    ∃ tasks, Consumed s start tasks t r ∧
      r.Traced s goal ((goal.injected given).map PinnedModule.name) tasks := by
  obtain ⟨tasks, hconsumed⟩ := h.consumed
  exact ⟨tasks, hconsumed, hconsumed.traced hstart⟩

/-- A project and one of its modules that want different major versions of `a`. -/
def tornGoal : Goal :=
  .project { name := "svc", modules := [{ name := "a", version := "^2.0.0" }, { name := "b" }] }

def tornSurroundings : Surroundings :=
  .inMemory { tags := [("https://a", ["1.0.0", "2.0.0"]), ("https://b", ["1.0.0"])] } none
    { items := [
        { uri := "https://a", manifest := { name := "a" } },
        { uri := "https://b"
          manifest := { name := "b", modules := [{ name := "a", version := "^1.0.0" }] } }] }
    0

def tornStart : Run where
  agenda := .start tornGoal.tasks [] []
  cache := { root := "/cache" }

theorem torn_starts : Run.start tornGoal [] 1 { root := "/cache" } = .ok tornStart :=
  rfl

def tornHistory : History :=
  [{ constraint := "^2.0.0", channel := "", parent := "svc (top-level)" },
    { constraint := "^1.0.0", channel := "", parent := "b@1.0.0" }]

/-- The conflict over `a` reports what the project and `b` asked, in this order. -/
theorem requests_traced_torn :
    ∃ t ended tasks, finish? tornSurroundings 10 tornStart = some ended ∧
      Consumed tornSurroundings tornStart tasks t ended ∧
        ended.failure.bind Failure.conflict? = some ("a", tornHistory) ∧
          demandsOn "a" tasks = tornHistory := by
  obtain ⟨ended, hrun, hconflict, hhistory⟩ : ∃ ended,
      finish? tornSurroundings 10 tornStart = some ended ∧
        ended.failure.bind Failure.conflict? = some ("a", tornHistory) ∧
          ended.agenda.history "a" = tornHistory := by
    apply exists_of_any
    decide +kernel
  obtain ⟨⟨t, hreach⟩, _⟩ := reachable_of_finish? hrun
  obtain ⟨tasks, hconsumed, htraced⟩ := requests_traced torn_starts hreach
  have hown := htraced.history "a" List.not_mem_nil
  exact ⟨t, ended, tasks, hrun, hconsumed, hconflict, hown ▸ hhistory⟩

/-- A conflict that has nothing to do with the run. -/
def foreignHistory : History :=
  [{ constraint := "^9", channel := "", parent := "elsewhere" }]

def foreignSurroundings : Surroundings :=
  .inMemory { tags := [("https://a", ["1.0.0"])] } (some (.constraintConflict "a" foreignHistory))
    { items := [{ uri := "https://a", manifest := { name := "a" } }] } 0

def foreignGoal : Goal :=
  .project { name := "svc", modules := [{ name := "a" }] }

def foreignStart : Run where
  agenda := .start foreignGoal.tasks [] []
  cache := { root := "/cache" }

/-- When the version source comes back with a conflict of its own, the run fails with that conflict,
whatever was asked of the module. -/
theorem foreign_conflict :
    Run.start foreignGoal [] 1 { root := "/cache" } = .ok foreignStart ∧
      ∃ ended, finish? foreignSurroundings 10 foreignStart = some ended ∧
        ended.failure.bind Failure.conflict? = some ("a", foreignHistory) ∧
          ended.agenda.history "a" ≠ foreignHistory := by
  refine ⟨rfl, ?_⟩
  apply exists_of_any
  decide +kernel

end Traced

end Run

end ModulePins
