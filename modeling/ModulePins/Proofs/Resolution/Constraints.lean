import ModulePins.Proofs.Resolution.Closure
import ModulePins.Proofs.Resolution.Registry

/-!
# Results satisfy all constraints

The pick of a module is made for the whole history of the module, each time a demand is added to it:
by a source that honours constraints, or from the cache after a check against all of them. So what
is chosen last satisfies the complete history, and the history contains the demands of all parents.
-/

namespace ModulePins

/-- The demand of a task is part of a history. -/
def History.Includes (history : History) (task : Task) : Prop :=
  ∃ d ∈ history, Agenda.demand task = .ok d

/-- An entry that is settled in accord with its history: all demands agree on the channel, and the
module chosen satisfies all constraints unless its version moves. -/
structure Entry.Honest (e : Entry) : Prop where
  agreed : ∀ d ∈ e.history, Demand.isOffStable d.channel = true → d.channel = e.history.channel
  satisfied : ∀ m, e.chosen = some m → m.mutable = false →
    ∀ text ∈ e.history.constraints, Satisfies m.version text

namespace Run

variable {s t : Surroundings} {r r' start : Run}

/-- A cached pick is used if it moves, or else satisfies all constraints. -/
theorem isUsable_iff {constraints : List String} {pick : Pick} :
    isUsable constraints pick = true ↔
      (pick.mutable = false → ∀ text ∈ constraints, Satisfies pick.tag text) := by
  cases hmutable : pick.mutable with
  | true => simp [isUsable, hmutable]
  | false =>
    simp only [isUsable, hmutable, Bool.false_or, List.all_eq_true, true_implies]
    refine forall_congr' fun text => imp_congr_right fun _ => ?_
    cases hread : Constraint.read text with
    | ok c => simp [Satisfies, hread]
    | error fault => simp [Satisfies, hread]

/-- However a pick comes about, it satisfies the constraints of the history it is made for. -/
theorem Picked.satisfies {cache after : Cache} {asked queries : List Query} {uri : String}
    {before : Option Pick} {history : History} {pick : Pick} (hsource : s.versions.Honours)
    (h : Picked s cache asked uri before history pick after queries)
    (himmutable : pick.mutable = false) :
    ∀ text ∈ history.constraints, Satisfies pick.tag text := by
  cases h with
  | stays _ hmutable => simp [himmutable] at hmutable
  | here _ _ => cases himmutable
  | cached _ _ _ husable => exact isUsable_iff.mp husable himmutable
  | asked _ _ _ _ hanswer _ => exact hsource _ _ _ hanswer himmutable

theorem agreed_append {history : History} {d : Demand}
    (hagreed : ∀ old ∈ history, Demand.isOffStable old.channel = true →
      old.channel = history.channel)
    (hd : Demand.isOffStable d.channel = true → d.channel = History.channel (history ++ [d])) :
    ∀ old ∈ history ++ [d], Demand.isOffStable old.channel = true →
      old.channel = History.channel (history ++ [d]) := by
  intro old hold hoff
  rcases List.mem_append.mp hold with hold | hold
  · rw [History.channel_append_of_mem [d] hold hoff]
    exact hagreed old hold hoff
  · cases List.mem_singleton.mp hold
    exact hd hoff

/-- All entries but those of given modules are honest. -/
def Honest (r : Run) : Prop :=
  ∀ name e, r.agenda.find? name = some e → e.given = false → e.Honest

theorem honest_transition (hsource : s.versions.Honours) (hr : r.Honest) (h : Transition s r r')
    (hfailure : r'.failure = none) : r'.Honest := by
  intro name e hfind hgiven
  cases h with
  | lost _ _ => exact hr name e hfind hgiven
  | failed hfailed _ => simp [hfailure] at hfailed
  | given h =>
    rw [h.find] at hfind
    split at hfind
    · cases hfind
      simp [h.given] at hgiven
    · exact hr name e hfind hgiven
  | @picked _ task _ d m before pick _ h =>
    rw [h.find] at hfind
    split at hfind
    · cases hfind
      have hold : before.Honest := by
        rcases h.toTaken.before_eq with ⟨_, rfl⟩ | hwas
        · exact ⟨by simp, by simp⟩
        · exact hr _ before hwas h.notGiven
      refine ⟨agreed_append hold.agreed h.agreed, ?_⟩
      intro chosen hchosen himmutable
      cases hchosen
      rw [h.shape] at himmutable ⊢
      exact h.picked.satisfies hsource himmutable
    · exact hr name e hfind hgiven

theorem honest_reachable {tasks : List Task} {replacements : List (String × String)}
    {given : List PinnedModule} {base : Path} {cache : Cache} {workers : Nat}
    (hsource : s.versions.Honours)
    (hstart : start = { agenda := .start tasks replacements given base, cache, workers })
    (h : Reachable s start t r) (hfailure : r.failure = none) : r.Honest := by
  subst hstart
  refine invariant_of_transition (isSound_start tasks replacements given base) ?_ ?_ h hfailure
  · intro name e hfind hgiven
    obtain ⟨m, _, _, rfl⟩ := Agenda.find?_start name tasks replacements given base e hfind
    cases hgiven
  · intro now later r r' _ _ hr htransition hnone
    exact honest_transition (s := { s with now, later }) hsource hr htransition hnone

/-- Only modules with certain names have the entries of given modules. -/
def GivenAmong (names : List String) (r : Run) : Prop :=
  ∀ name e, r.agenda.find? name = some e → e.given = true → name ∈ names

theorem givenAmong_start (tasks : List Task) (replacements : List (String × String))
    (given : List PinnedModule) (base : Path) (cache : Cache) (workers : Nat) :
    GivenAmong (given.map PinnedModule.name)
      { agenda := .start tasks replacements given base, cache, workers } := by
  intro name e hfind _
  obtain ⟨m, hm, rfl, _⟩ := Agenda.find?_start name tasks replacements given base e hfind
  exact List.mem_map_of_mem hm

theorem givenAmong_transition {names : List String} (hr : r.GivenAmong names)
    (h : Transition s r r') (hfailure : r'.failure = none) : r'.GivenAmong names := by
  intro name e hfind hgiven
  cases h with
  | lost _ _ => exact hr name e hfind hgiven
  | failed hfailed _ => simp [hfailure] at hfailed
  | given h =>
    rw [h.find] at hfind
    split at hfind
    · rename_i hname
      exact hname ▸ hr _ _ h.was h.given
    · exact hr name e hfind hgiven
  | picked h =>
    rw [h.find] at hfind
    split at hfind
    · cases hfind
      cases hgiven
    · exact hr name e hfind hgiven

theorem given_reachable {tasks : List Task} {replacements : List (String × String)}
    {given : List PinnedModule} {base : Path} {cache : Cache} {workers : Nat}
    (hstart : start = { agenda := .start tasks replacements given base, cache, workers })
    (h : Reachable s start t r) (hfailure : r.failure = none) :
    r.GivenAmong (given.map PinnedModule.name) := by
  subst hstart
  exact invariant_of_transition (isSound_start tasks replacements given base)
    (givenAmong_start tasks replacements given base cache workers)
    (fun _ _ _ _ _ _ hr htransition hnone => givenAmong_transition hr htransition hnone) h hfailure

/-- What was noted of a module that was not given is part of its history. -/
theorem Noted.includes {task : Task} {e : Entry} (h : r.Noted task)
    (hfind : r.agenda.find? task.requirement.name = some e) (hgiven : e.given = false) :
    e.history.Includes task := by
  obtain ⟨_, e', hfind', hnotes⟩ := h
  rw [hfind, Option.some.injEq] at hfind'
  subst hfind'
  rcases hnotes with hg | ⟨d, hd, hmem⟩
  · simp [hgiven] at hg
  · exact ⟨d, hmem, hd⟩

/-- In the result of a run each module that was not given has a history that contains the demands of
all first requests and of all recorded manifests for it, agrees on one channel, and is satisfied in
all its constraints unless the version of the module moves. -/
theorem resolved_honoured {goal : Goal} {given : List PinnedModule} {cache : Cache} {base : Path}
    {limit : Nat} {modules : List PinnedModule} (hsource : s.versions.Honours)
    (hstart : Run.start goal given 1 cache base = .ok start)
    (hreadable : ∀ q, Requested s start q → q.isReadable = true)
    (hrun : finish? s limit start = some r) (hreturn : r.outcome = .ok modules) :
    ∀ m ∈ modules, m.name ∉ (goal.injected given).map PinnedModule.name →
      (m.mutable = false →
        ∀ text ∈ (r.agenda.history m.name).constraints, Satisfies m.version text) ∧
      (∀ task ∈ goal.tasks, task.requirement.name = m.name →
        (r.agenda.history m.name).Includes task) ∧
      (∀ name manifest, r.manifests.get? name = some manifest →
        ∃ parent ∈ modules, parent.name = name ∧ ∀ task ∈ manifest.tasks parent,
          task.requirement.name = m.name → (r.agenda.history m.name).Includes task) ∧
      ∀ d ∈ r.agenda.history m.name, ∀ d' ∈ r.agenda.history m.name,
        Demand.isOffStable d.channel = true → Demand.isOffStable d'.channel = true →
          d.channel = d'.channel := by
  obtain ⟨⟨_, hreach⟩, hidle⟩ := reachable_of_finish? hrun
  obtain ⟨hfailure, rfl⟩ := outcome_ok hreturn
  obtain ⟨_, hstart⟩ := start_ok hstart
  have hr := closed_reachable Nat.one_pos hstart hreadable hreach hfailure
  have hdone := tasks_eq_nil_of_idle hidle hfailure hr.workers
  intro m hm hnew
  obtain ⟨entry, _, hmet⟩ := hr.met_of_mem_resolved hm
  have hgiven : entry.given = false := by
    rw [Bool.eq_false_iff]
    intro hg
    exact hnew (given_reachable hstart hreach hfailure _ _ hmet.find hg)
  have hhonest := honest_reachable hsource hstart hreach hfailure _ _ hmet.find hgiven
  have hincludes : ∀ task, r.Keeps task → task.requirement.name = m.name →
      entry.history.Includes task := by
    intro task hkeeps hname
    exact (hkeeps.noted hdone).includes (hname ▸ hmet.find) hgiven
  rw [r.agenda.history_of_find? m.name hmet.find]
  refine ⟨?_, ?_, ?_, ?_⟩
  · exact hhonest.satisfied m hmet.chosen
  · intro task htask
    exact hincludes task (hr.wanted task htask)
  · intro name manifest hget
    obtain ⟨_, parent, _, hparent⟩ := hr.met name (hr.recorded name manifest hget)
    have hmanifest := Option.some.inj (hparent.recorded.symm.trans hget)
    subst hmanifest
    refine ⟨parent, ?_, hparent.own, fun task htask => hincludes task (hparent.keeps task htask)⟩
    refine List.mem_filterMap.mpr ⟨name, hr.recorded name _ hget, ?_⟩
    rw [hparent.find, Option.bind_some, hparent.chosen]
  · intro d hd d' hd' hoff hoff'
    exact (hhonest.agreed d hd hoff).trans (hhonest.agreed d' hd' hoff').symm

/-- The module `a` is first picked at `2.0.0`; what is returned satisfies the demands of the project
and of `b`. -/
theorem resolved_honoured_cycle :
    ∃ r, finish? (.inMemory cycleRegistry none cycleShelf 0) 10 cycleStart = some r ∧
      r.outcome = .ok cycleModules ∧
      (∀ text ∈ (r.agenda.history "a").constraints, Satisfies "1.1.0" text) ∧
      (r.agenda.history "a").Includes
        { requirement := { name := "a", version := ">=1.0.0" }, parent := "svc (top-level)" } ∧
      ∀ name manifest, r.manifests.get? name = some manifest →
        ∃ parent ∈ cycleModules, parent.name = name ∧ ∀ task ∈ manifest.tasks parent,
          task.requirement.name = "a" → (r.agenda.history "a").Includes task := by
  obtain ⟨r, hrun, hreturn⟩ := cycle_returns
  obtain ⟨hsatisfied, hfirst, hrecorded, _⟩ :=
    resolved_honoured (cycleRegistry.honours none) cycle_starts cycle_isReadable hrun hreturn
      { name := "a", uri := "https://a", version := "1.1.0" } (by simp [cycleModules])
      (by simp [Goal.injected])
  exact ⟨r, hrun, hreturn, hsatisfied rfl, hfirst _ (by decide) rfl, hrecorded⟩

end Run

end ModulePins
