import ModulePins.Proofs.Resolution.Closure

/-!
# Runs on another cache

A run on another cache takes the same steps without asking the version source anything, as long as
the other cache holds every pick that is looked up. The cache, the queries and the notices differ;
all else is the same in every state.
-/

namespace ModulePins

namespace Run

variable {s t again u : Surroundings} {r r' start ended : Run}
variable {serve : Fetch → Except Failure ModuleManifest} {cache : Cache}

/-- The run with another cache, before any question to the version source. -/
def withCache (r : Run) (cache : Cache) (notices : List Notice) : Run :=
  { r with cache, queries := [], notices }

theorem fetchManifest_withCache (hserve : s.Serves serve) (hagain : again.Serves serve) (r : Run)
    (m : PinnedModule) (cache : Cache) (notices : List Notice) :
    ∃ notices', fetchManifest again (r.withCache cache notices) m =
      ((fetchManifest s r m).1.withCache cache notices', (fetchManifest s r m).2) := by
  refine ⟨notices ++ (again.manifests r.fetches { uri := m.uri, version := m.version }).notices, ?_⟩
  unfold fetchManifest withCache
  dsimp only
  rw [hserve, hagain]
  cases serve { uri := m.uri, version := m.version } with
  | error failure => rfl
  | ok manifest =>
    by_cases hname : manifest.name = m.name
    · simp only [if_pos hname]
    · simp only [if_neg hname]

def marked (r : Run) (m : PinnedModule) : Run :=
  { r with agenda := r.agenda.update m.name fun e => { e with expanded := some m } }

def concluded (m : PinnedModule) : Run × Except Failure ModuleManifest → Run
  | (r, .error failure) => r.fail failure
  | (r, .ok manifest) =>
    { r with
      manifests := r.manifests.put m.name manifest
      agenda := { r.agenda with tasks := r.agenda.tasks ++ manifest.tasks m } }

theorem expand_of_new {m : PinnedModule}
    (hnew : (r.agenda.find? m.name).bind Entry.expanded ≠ some m) :
    expand s r m = concluded m (fetchManifest s (r.marked m) m) := by
  rw [expand, if_neg hnew]
  dsimp only
  split
  · rename_i hfetch
    rw [marked, hfetch]
    rfl
  · rename_i hfetch
    rw [marked, hfetch]
    rfl

theorem concluded_withCache (m : PinnedModule) (r : Run) (cache : Cache) (notices : List Notice)
    (outcome : Except Failure ModuleManifest) :
    concluded m (r.withCache cache notices, outcome) =
      (concluded m (r, outcome)).withCache cache notices := by
  cases outcome with
  | error failure => rfl
  | ok manifest => rfl

theorem expand_withCache (hserve : s.Serves serve) (hagain : again.Serves serve) (r : Run)
    (m : PinnedModule) (cache : Cache) (notices : List Notice) :
    ∃ notices', expand again (r.withCache cache notices) m =
      (expand s r m).withCache cache notices' := by
  by_cases hknown : (r.agenda.find? m.name).bind Entry.expanded = some m
  · refine ⟨notices, ?_⟩
    have hexpand : expand s r m = r := if_pos hknown
    rw [hexpand]
    exact if_pos hknown
  · obtain ⟨notices', hfetch⟩ := fetchManifest_withCache hserve hagain (r.marked m) m cache notices
    refine ⟨notices', ?_⟩
    have hmarked : (r.withCache cache notices).marked m = (r.marked m).withCache cache notices := rfl
    rw [expand_of_new hknown, expand_of_new (r := r.withCache cache notices) hknown, hmarked, hfetch,
      concluded_withCache]

theorem choosePick_withCache {item : Item} {uri : String} {pick : Pick} (again : Surroundings)
    (cache : Cache) (notices : List Notice) (h : choosePick s r item uri = (r', .ok pick))
    (hfound : (∀ p, (r.agenda.find? item.name).bind Entry.pick = some p → p.mutable = false) →
      Location.isLocal uri = false →
        (cache.get again.now uri (r.agenda.history item.name).channel).outcome = .ok (some pick) ∧
          isUsable (r.agenda.history item.name).constraints pick = true) :
    ∃ notices', choosePick again (r.withCache cache notices) item uri =
      (r.withCache cache notices', .ok pick) := by
  unfold choosePick at h ⊢
  dsimp only [withCache] at h ⊢
  split at h
  · cases h
  · split at h
    · cases h
      exact ⟨_, rfl⟩
    · rename_i hnone
      have hbefore := immutable_of_filter_eq_none hnone
      by_cases hlocal : Location.isLocal uri = true
      · rw [if_pos hlocal] at h
        cases h
        exact ⟨notices, if_pos hlocal⟩
      · obtain ⟨hget, husable⟩ := hfound hbefore (by simpa using hlocal)
        refine ⟨notices ++
          (cache.get again.now uri (r.agenda.history item.name).channel).notices, ?_⟩
        rw [if_neg hlocal, lookUpVersion]
        simp only [hget, husable, if_true]

section Step

variable {task : Task} {rest : List Task} {d : Demand} {before : Entry}

theorem Taken.step_withCache (hserve : s.Serves serve) (hagain : again.Serves serve)
    (h : Taken r task rest d before) {chosen : Run} {pick : Pick}
    (hchoose : choosePick s (r.noting task rest d) (r.itemOf task d)
      (r.agenda.uriOf task.requirement.name) = (chosen, .ok pick))
    (hfound : (∀ p, before.pick = some p → p.mutable = false) →
      Location.isLocal (r.agenda.uriOf task.requirement.name) = false →
        (cache.get again.now (r.agenda.uriOf task.requirement.name)
            (History.channel (before.history ++ [d]))).outcome = .ok (some pick) ∧
          isUsable (History.constraints (before.history ++ [d])) pick = true)
    (notices : List Notice) :
    ∃ notices', step again (r.withCache cache notices) =
      (step s r).withCache cache notices' := by
  have hself : ((r.noting task rest d).agenda.find? task.requirement.name).bind Entry.pick =
      before.pick := by
    rw [h.find?_noting, if_pos rfl]
    rfl
  rw [← hself, ← h.history_noting] at hfound
  obtain ⟨notices', hchooseAgain⟩ := choosePick_withCache again cache notices hchoose hfound
  have htakenAgain : Taken (r.withCache cache notices) task rest d before :=
    { h with }
  let item : Item := (r.withCache cache notices).itemOf task d
  have hprocess : process again ((r.withCache cache notices).noting task rest d) item = _ :=
    process_of_choosePick rfl hchooseAgain
  obtain ⟨_, after, queries, more, rfl, _⟩ := choosePick_ok hchoose
  rw [step_of_taken h, step_of_taken htakenAgain, hprocess, process_of_choosePick rfl hchoose]
  let chosen : Run := { r.noting task rest d with cache := after, queries, notices := more }
  exact expand_withCache hserve hagain (chosen.withChosen (pick.pinned item.name _) pick) _ cache
    notices'

end Step

/-- A step that does not fail is taken again if the other cache holds what is looked up in it. -/
theorem step_withCache (hserve : s.Serves serve) (hagain : again.Serves serve)
    (hsound : r.agenda.IsSound) (hactive : r.isActive = true) (hnone : (step s r).failure = none)
    (hfound : ∀ task rest d m before pick fetched,
      PickedStep s r (step s r) task rest d m before pick fetched →
      (∀ p, before.pick = some p → p.mutable = false) → Location.isLocal m.uri = false →
        (cache.get again.now m.uri (History.channel (before.history ++ [d]))).outcome =
            .ok (some pick) ∧
          isUsable (History.constraints (before.history ++ [d])) pick = true)
    (notices : List Notice) :
    ∃ notices', step again (r.withCache cache notices) =
      (step s r).withCache cache notices' := by
  -- Both runs have the same agenda, so their first task is of the same kind.
  obtain ⟨task, rest, htasks, ⟨fault, hbroken⟩ | ⟨d, entry, m, hdemand, hfind, hgiven, hchosen,
    hname⟩ | ⟨d, before, htaken⟩⟩ := first_cases hsound hactive
  · refine ⟨notices, ?_⟩
    rw [step_of_lost htasks hbroken, step_of_lost (r := r.withCache cache notices) htasks hbroken]
    rfl
  · rw [step_of_given htasks hdemand hfind hgiven hchosen hname,
      step_of_given (r := r.withCache cache notices) htasks hdemand hfind hgiven hchosen hname]
    exact expand_withCache hserve hagain
      { r with agenda := { r.agenda with tasks := rest }.meet m.name } m cache notices
  · rcases step_picked (s := s) (exists_task_of_isActive hactive).1 htaken with
      ⟨hfailed, _⟩ | ⟨chosen, pick, m, fetched, hchoose, hpicked⟩
    · simp [hnone] at hfailed
    have huri : m.uri = r.agenda.uriOf task.requirement.name :=
      congrArg PinnedModule.uri hpicked.shape
    exact htaken.step_withCache hserve hagain hchoose
      (huri ▸ hfound _ _ _ _ _ _ _ hpicked) notices

/-- A run on a cache that holds all that is looked up ends as the run does. -/
theorem finish?_withCache (again : Surroundings) (cache : Cache)
    (hstep : ∀ t r, Reachable s start t r → r.isActive = true →
      ∀ u : Surroundings, u.Follows again → ∀ notices, ∃ notices',
        step u (r.withCache cache notices) = (step t r).withCache cache notices')
    {limit : Nat} (hr : Reachable s start t r) (hrun : finish? t limit r = some ended)
    (hu : u.Follows again) (notices : List Notice) :
    ∃ notices', finish? u limit (r.withCache cache notices) =
      some (ended.withCache cache notices') := by
  induction limit generalizing t u r notices with
  | zero =>
    rw [finish?] at hrun
    split at hrun
    · cases hrun
    · rename_i hidle
      cases hrun
      exact ⟨notices, if_neg hidle⟩
  | succ limit ih =>
    rw [finish?] at hrun
    split at hrun
    · rename_i hactive
      obtain ⟨notices', hagain⟩ := hstep t r hr hactive u hu notices
      obtain ⟨last, hlast⟩ := ih (hr.next hactive) hrun hu.next notices'
      refine ⟨last, ?_⟩
      rw [← hlast, ← hagain]
      exact if_pos hactive
    · rename_i hidle
      cases hrun
      exact ⟨notices, if_neg hidle⟩

theorem start_onCache (goal : Goal) (given : List PinnedModule) (workers : Int) (c d : Cache)
    (base : Path) :
    Run.start goal given workers d base =
      (Run.start goal given workers c base).map fun start => { start with cache := d } := by
  unfold Run.start
  by_cases hworkers : workers < 1
  · simp [hworkers, bind, Except.bind, Except.map]
  · cases goal with
    | project p => simp [hworkers, bind, Except.bind, pure, Except.pure, Except.map]
    | module m =>
      cases hmake : Requirement.make m.name "" <;>
        simp [hworkers, hmake, bind, Except.bind, pure, Except.pure, Except.map]

theorem start_withCache {goal : Goal} {given : List PinnedModule} {workers : Int} {before : Cache}
    {base : Path} (h : Run.start goal given workers before base = .ok start) (cache : Cache) :
    Run.start goal given workers cache base = .ok (start.withCache cache []) := by
  rw [start_onCache goal given workers before cache base, h]
  obtain ⟨_, rfl⟩ := start_ok h
  rfl

end Run

end ModulePins
