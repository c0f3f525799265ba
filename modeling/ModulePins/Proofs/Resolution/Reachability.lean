import ModulePins.Proofs.Resolution.Steadfast

/-!
# Where the modules of a result come from

Every module that a run returns can be reached from what the goal asks for by following the
manifests on record at the end, or else from what a manifest asked for that the run recorded earlier
and replaced: the requests of a version that was given up stay. A run that never replaces a chosen
module returns only what the manifests at the end lead to.
-/

namespace ModulePins

/-- What a goal asks for itself. -/
def Goal.Asks (goal : Goal) (q : Requirement) : Prop :=
  ∃ task ∈ goal.tasks, task.requirement = q

/-- Names to which manifests lead from what is asked for. -/
inductive Ledger.LeadsTo (manifests : Ledger ModuleManifest) (asked : Requirement → Prop) :
    String → Prop
  | asked {q : Requirement} (h : asked q) : LeadsTo manifests asked q.name
  | listed {name : String} {manifest : ModuleManifest} {q : Requirement}
      (h : LeadsTo manifests asked name) (hget : manifests.get? name = some manifest)
      (hq : q ∈ manifest.modules) : LeadsTo manifests asked q.name

theorem Ledger.LeadsTo.mono {manifests : Ledger ModuleManifest} {asked asked' : Requirement → Prop}
    (hall : ∀ q, asked q → asked' q) {name : String} (h : manifests.LeadsTo asked name) :
    manifests.LeadsTo asked' name := by
  induction h with
  | asked h => exact .asked (hall _ h)
  | listed _ hget hq ih => exact .listed ih hget hq

namespace Run

variable {s t : Surroundings} {r r' start ended : Run}

/-- A requirement in a manifest that was on record in the course of a run, and is not any more at
its end. -/
def Superseded (s : Surroundings) (start ended : Run) (q : Requirement) : Prop :=
  ∃ t r name manifest, Reachable s start t r ∧ r.manifests.get? name = some manifest ∧
    ended.manifests.get? name ≠ some manifest ∧ q ∈ manifest.modules

/-- What a recorded manifest lists is reached at the end, or was superseded. -/
theorem leadsTo_of_recorded {asked : Requirement → Prop} {name : String} {manifest : ModuleManifest}
    (h : Reachable s start t r) (hget : r.manifests.get? name = some manifest)
    (hname : ended.manifests.LeadsTo (fun q => asked q ∨ Superseded s start ended q) name)
    {q : Requirement} (hq : q ∈ manifest.modules) :
    ended.manifests.LeadsTo (fun q => asked q ∨ Superseded s start ended q) q.name := by
  by_cases hkept : ended.manifests.get? name = some manifest
  · exact .listed hname hkept hq
  · exact .asked (.inr ⟨t, r, name, manifest, h, hget, hkept, hq⟩)

/-- Everything met and everything on the agenda is reached at the end, or from what was
superseded. -/
theorem leadsTo_reachable {asked : Requirement → Prop} (hsound : start.agenda.IsSound)
    (horder : start.agenda.order = [])
    (hasked : ∀ task ∈ start.agenda.tasks, asked task.requirement)
    (h : Reachable s start t r) (hfailure : r.failure = none) :
    (∀ task ∈ r.agenda.tasks, ended.manifests.LeadsTo
        (fun q => asked q ∨ Superseded s start ended q) task.requirement.name) ∧
      ∀ name ∈ r.agenda.order, ended.manifests.LeadsTo
        (fun q => asked q ∨ Superseded s start ended q) name := by
  induction h with
  | initial =>
    refine ⟨fun task htask => .asked (.inl (hasked task htask)), ?_⟩
    intro name hname
    rw [horder] at hname
    cases hname
  | @next t r hr hactive ih =>
    have hnone := (exists_task_of_isActive hactive).1
    obtain ⟨htasks, hmet⟩ := ih hnone
    rcases (step_transition (isSound_reachable hsound hr hnone) hactive).lost_or_dealt hfailure with
      ⟨_, _, _, hfirst, _, heq⟩ | ⟨task, rest, m, entry, fetched, hdealt⟩
    · rw [heq]
      exact ⟨fun t ht => htasks t (by rw [hfirst]; exact List.mem_cons_of_mem _ ht), hmet⟩
    · have hself := htasks task (by rw [hdealt.first]; exact List.mem_cons_self)
      rw [← hdealt.name] at hself
      constructor
      · intro t ht
        rw [hdealt.tasks] at ht
        rcases List.mem_append.mp ht with ht | ht
        · exact htasks t (by rw [hdealt.first]; exact List.mem_cons_of_mem _ ht)
        · cases hfetched : fetched with
          | none => simp [hfetched] at ht
          | some manifest =>
            rw [hfetched] at ht
            obtain ⟨q, hq, rfl⟩ := List.mem_map.mp ht
            exact leadsTo_of_recorded (hr.next hactive)
              (by simp [hdealt.manifests, hfetched]) hself hq
      · intro name hname
        rcases (hdealt.mem_order name).mp hname with hold | rfl
        · exact hmet name hold
        · exact hself

/-- The modules returned are those to which the manifests at the end lead from the goal and from
what was superseded in the course of the run. In a steadfast run nothing was superseded. -/
theorem resolved_led {goal : Goal} {given : List PinnedModule} {cache : Cache} {base : Path}
    {limit : Nat} {modules : List PinnedModule}
    (hstart : Run.start goal given 1 cache base = .ok start)
    (hrun : finish? s limit start = some ended) (hreturn : ended.outcome = .ok modules) :
    (∀ m ∈ modules, ended.manifests.LeadsTo
        (fun q => goal.Asks q ∨ Superseded s start ended q) m.name) ∧
      (Steadfast s start → ∀ m ∈ modules, ended.manifests.LeadsTo goal.Asks m.name) := by
  obtain ⟨⟨_, hreach⟩, hidle⟩ := reachable_of_finish? hrun
  obtain ⟨hfailure, rfl⟩ := outcome_ok hreturn
  have hsound := isSound_of_start hstart
  obtain ⟨_, hstart⟩ := start_ok hstart
  have hled : ∀ m ∈ ended.agenda.resolved, ended.manifests.LeadsTo
      (fun q => goal.Asks q ∨ Superseded s start ended q) m.name := by
    intro m hm
    obtain ⟨name, hname, hchosen⟩ := List.mem_filterMap.mp hm
    obtain ⟨e, hfind, hchosen⟩ := Option.bind_eq_some_iff.mp hchosen
    rw [name_of_chosen hstart hreach hfailure hfind hchosen]
    refine (leadsTo_reachable hsound ?_ ?_ hreach hfailure).2 name hname
    · rw [hstart]
      rfl
    · rw [hstart]
      exact fun task htask => ⟨task, htask, rfl⟩
  refine ⟨hled, ?_⟩
  intro hsteadfast m hm
  refine (hled m hm).mono ?_
  rintro q (hq | ⟨_, r, name, manifest, hr, hget, hgone, _⟩)
  · exact hq
  · have hnone := failure_eq_none_of_finish? hrun hfailure hr
    exact absurd ((hsteadfast.of_reachable hr).keeps_manifest (isSound_reachable hsound hr hnone)
      (hr.to_ended hreach hidle) hfailure (backed_of_recorded hstart hr hnone hget) hget) hgone

/-- The newest version of `a` needs `c`. What `b` asks of `a` takes `a` back to a version that needs
nothing. -/
def retreatShelf : Shelf where
  items := [
    { uri := "https://a", version := some "2.0.0"
      manifest := { name := "a", modules := [{ name := "c" }] } },
    { uri := "https://a", version := some "1.0.0", manifest := { name := "a" } },
    { uri := "https://b"
      manifest := { name := "b", modules := [{ name := "a", version := "^1.0.0" }] } },
    { uri := "https://c", manifest := { name := "c" } }]

def retreatRegistry : Registry where
  tags := [("https://a", ["1.0.0", "2.0.0"]), ("https://b", ["1.0.0"]), ("https://c", ["1.0.0"])]

def retreatGoal : Goal :=
  .project { name := "svc", modules := [{ name := "a" }, { name := "b" }] }

def retreatStart : Run where
  agenda := .start retreatGoal.tasks [] []
  cache := { root := "/cache" }

def retreatModules : List PinnedModule :=
  ["a", "b", "c"].map fun name => { name, uri := "https://" ++ name, version := "1.0.0" }

theorem retreat_returns :
    ∃ ended, finish? (.inMemory retreatRegistry none retreatShelf 0) 10 retreatStart = some ended ∧
      ended.outcome = .ok retreatModules := by
  apply exists_returned
  decide +kernel

/-- No manifest at the end of the run lists `c`, and yet `c` is returned. -/
theorem retreat_not_led :
    ∃ ended, finish? (.inMemory retreatRegistry none retreatShelf 0) 10 retreatStart = some ended ∧
      ended.outcome = .ok retreatModules ∧
      ∃ m ∈ retreatModules, ¬ended.manifests.LeadsTo retreatGoal.Asks m.name := by
  obtain ⟨ended, hrun, hreturn⟩ := retreat_returns
  refine ⟨ended, hrun, hreturn, { name := "c", uri := "https://c", version := "1.0.0" },
    by decide, ?_⟩
  have hlisted : ∀ entry ∈ ended.manifests.entries, ∀ q ∈ entry.2.modules, q.name ≠ "c" := by
    have hall : ((finish? (.inMemory retreatRegistry none retreatShelf 0) 10 retreatStart).all
        fun r => decide (∀ entry ∈ r.manifests.entries, ∀ q ∈ entry.2.modules, q.name ≠ "c")) =
          true := by decide +kernel
    rw [hrun] at hall
    exact of_decide_eq_true hall
  have hasked : ∀ task ∈ retreatGoal.tasks, task.requirement.name ≠ "c" := by decide
  suffices hall : ∀ name, ended.manifests.LeadsTo retreatGoal.Asks name → name ≠ "c" from
    fun h => hall "c" h rfl
  intro name h
  cases h with
  | asked h =>
    obtain ⟨task, htask, rfl⟩ := h
    exact hasked task htask
  | listed _ hget hq => exact hlisted _ (Ledger.mem_entries_of_get? hget) _ hq

/-- The request for `c` was superseded, and leads to `c`. -/
theorem resolved_led_retreat :
    ∃ ended, finish? (.inMemory retreatRegistry none retreatShelf 0) 10 retreatStart = some ended ∧
      ended.outcome = .ok retreatModules ∧
      ended.manifests.LeadsTo
        (fun q => retreatGoal.Asks q ∨
          Superseded (.inMemory retreatRegistry none retreatShelf 0) retreatStart ended q) "c" := by
  obtain ⟨ended, hrun, hreturn⟩ := retreat_returns
  have hstart : Run.start retreatGoal [] 1 { root := "/cache" } = .ok retreatStart := rfl
  refine ⟨ended, hrun, hreturn, ?_⟩
  exact (resolved_led hstart hrun hreturn).1
    { name := "c", uri := "https://c", version := "1.0.0" } (by decide)

end Run

end ModulePins
