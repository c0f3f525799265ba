import ModulePins.Proofs.Resolution.Ending

/-!
# No request is lost, unless its range is broken

A run with one worker that meets no broken range deals with every request that ever waits on its
agenda, each in its turn, and any failure on the way is what it ends with. A broken range ends the
run as well, but without a failure: what was chosen so far is returned as if it were all.
-/

namespace ModulePins

theorem Agenda.demand_error {task : Task} (h : task.requirement.isReadable = false) :
    ∃ fault, demand task = .error fault := by
  cases hread : isConstraint task.requirement.version with
  | ok isRange => simp [Requirement.isReadable, hread] at h
  | error fault =>
    have hversion : task.requirement.version ≠ "" := by
      intro hempty
      rw [hempty] at hread
      cases hread
    exact ⟨fault, by simp [demand, hversion, hread, bind, Except.bind]⟩

namespace Run

variable {s t : Surroundings} {r r' start ended : Run} {base : Path}

/-- In the course of a run from `r` the task in front of `after` comes up and is dealt with. -/
def ComesUp (s : Surroundings) (r : Run) (task : Task) (after : List Task) : Prop :=
  ∃ t now pushed m entry fetched, Reachable s r t now ∧ now.isActive = true ∧
    Dealt t now (step t now) task (after ++ pushed) m entry fetched

/-- Whatever waits on the agenda in the course of a run, first or pushed later, comes up in its turn
and is dealt with. -/
def Complete (s : Surroundings) (start : Run) : Prop :=
  ∀ t r, Reachable s start t r → ∀ before task after,
    r.agenda.tasks = before ++ task :: after → ComesUp t r task after

theorem ComesUp.of_step {task : Task} {after pushed : List Task} (hactive : r.isActive = true)
    (h : ComesUp s.next (step s r) task (after ++ pushed)) : ComesUp s r task after := by
  obtain ⟨t, now, more, m, entry, fetched, hreach, hnow, hdealt⟩ := h
  rw [List.append_assoc] at hdealt
  exact ⟨t, now, pushed ++ more, m, entry, fetched, hreach.of_step hactive, hnow, hdealt⟩

theorem step_of_broken {task : Task} {rest : List Task} (htasks : r.agenda.tasks = task :: rest)
    (hbroken : task.requirement.isReadable = false) :
    step s r = { r with agenda := { r.agenda with tasks := rest }, workers := r.workers - 1 } := by
  obtain ⟨fault, hdemand⟩ := Agenda.demand_error hbroken
  exact step_of_lost htasks hdemand

theorem workers_le (hsound : start.agenda.IsSound) (h : Reachable s start t r)
    (hfailure : r.failure = none) : r.workers ≤ start.workers := by
  refine invariant_of_transition (P := fun r => r.workers ≤ start.workers) hsound (Nat.le_refl _) ?_
    h hfailure
  intro _ _ r r' _ _ hr htransition hnone
  rcases htransition.lost_or_dealt hnone with ⟨_, _, _, _, _, rfl⟩ | ⟨_, _, _, _, _, hdealt⟩
  · exact Nat.le_trans (Nat.sub_le _ _) hr
  · rw [hdealt.workers]
    exact hr

/-- With one worker, nothing is left to do after a broken range. -/
theorem isActive_of_broken {task : Task} {rest : List Task} (hworkers : r.workers ≤ 1)
    (htasks : r.agenda.tasks = task :: rest) (hbroken : task.requirement.isReadable = false) :
    (step s r).isActive = false := by
  have hnone : r.workers - 1 = 0 := by omega
  simp [step_of_broken htasks hbroken, isActive, hnone]

/-- A step that does not fail deals with the first task if its range is not broken. -/
theorem dealt_of_readable {task : Task} {rest : List Task} (hsound : r.agenda.IsSound)
    (hactive : r.isActive = true) (hfailure : (step s r).failure = none)
    (htasks : r.agenda.tasks = task :: rest) (hreadable : task.requirement.isReadable = true) :
    ∃ m entry fetched, Dealt s r (step s r) task rest m entry fetched := by
  rcases (step_transition hsound hactive).lost_or_dealt hfailure with
    ⟨lost, _, fault, hlost, hbroken, _⟩ | ⟨_, _, m, entry, fetched, hdealt⟩
  · obtain ⟨d, hd⟩ := Agenda.demand_ok hreadable
    rw [htasks, List.cons.injEq] at hlost
    rw [hlost.1, hbroken] at hd
    cases hd
  · have hfirst := hdealt.first
    rw [htasks, List.cons.injEq] at hfirst
    obtain ⟨rfl, rfl⟩ := hfirst
    exact ⟨m, entry, fetched, hdealt⟩

section Readable

variable {tasks : List Task} {replacements : List (String × String)} {given : List PinnedModule}
variable {cache : Cache} {limit : Nat}
variable (hstart : start = { agenda := .start tasks replacements given base, cache })
variable (hrun : finish? s limit start = some ended) (hended : ended.failure = none)
variable (hreadable : ∀ q, Requested s start q → q.isReadable = true)
include hstart hrun hended hreadable

/-- As long as a task waits, the run goes on and deals with it. -/
theorem dealt_of_waiting {task : Task} {rest : List Task} (h : Reachable s start t r)
    (htasks : r.agenda.tasks = task :: rest) :
    r.isActive = true ∧ ∃ m entry fetched, Dealt t r (step t r) task rest m entry fetched := by
  have hsound : start.agenda.IsSound := by
    rw [hstart]
    exact isSound_start tasks replacements given base
  have hfailure := failure_eq_none_of_finish? hrun hended h
  have hworkers := (closed_reachable Nat.one_pos hstart hreadable h hfailure).workers
  have hactive : r.isActive = true := by
    simp [isActive, hfailure, htasks]
    omega
  refine ⟨hactive, ?_⟩
  exact dealt_of_readable (isSound_reachable hsound h hfailure) hactive
    (failure_eq_none_of_finish? hrun hended (h.next hactive)) htasks
    (hreadable _ ⟨t, r, task, rest, h, hactive, htasks, rfl⟩)

/-- In a run that ends without a failure and meets no broken range, every task comes up. -/
theorem complete_of_readable : Complete s start := by
  intro t r hr before
  -- The tasks in front of it are dealt with one by one; each step takes away the first of them.
  induction before generalizing t r with
  | nil =>
    intro task after htasks
    obtain ⟨hactive, m, entry, fetched, hdealt⟩ :=
      dealt_of_waiting hstart hrun hended hreadable hr htasks
    exact ⟨t, r, [], m, entry, fetched, .initial, hactive, by simpa using hdealt⟩
  | cons first before ih =>
    intro task after htasks
    rw [List.cons_append] at htasks
    obtain ⟨hactive, m, _, fetched, hdealt⟩ :=
      dealt_of_waiting hstart hrun hended hreadable hr htasks
    have hnext : (step t r).agenda.tasks = before ++ task ::
        (after ++ fetched.elim [] fun manifest => manifest.tasks m) := by
      rw [hdealt.tasks, List.append_assoc, List.cons_append]
    exact (ih t.next (step t r) (hr.next hactive) task _ hnext).of_step hactive

end Readable

theorem readable_of_complete (hsound : start.agenda.IsSound) (hworkers : start.workers = 1)
    (hcomplete : Complete s start) (q : Requirement) (h : Requested s start q) :
    q.isReadable = true := by
  obtain ⟨t, r, task, rest, hr, hactive, htasks, rfl⟩ := h
  rw [← Bool.not_eq_false]
  intro hbroken
  obtain ⟨hfailure, _⟩ := exists_task_of_isActive hactive
  have hone : r.workers ≤ 1 := hworkers ▸ workers_le hsound hr hfailure
  have hlast := isActive_of_broken (s := t) hone htasks hbroken
  obtain ⟨_, now, _, _, _, _, hlater, hnow, hdealt⟩ := hcomplete t r hr [] task rest htasks
  rcases hlater.eq_or_step with ⟨rfl, rfl⟩ | ⟨_, hlater⟩
  · have hsame := hdealt.workers
    have hpositive : now.workers ≠ 0 := by
      intro hzero
      simp [isActive, hzero] at hactive
    rw [step_of_broken htasks hbroken] at hsame
    dsimp only at hsame
    omega
  · rcases hlater.eq_or_step with ⟨_, rfl⟩ | ⟨hgoes, _⟩
    · simp [hlast] at hnow
    · simp [hlast] at hgoes

/-- A run with one worker that has come to its end. A failure in any of its states is what it ends
with; after a broken range it returns what was chosen before, without a failure. So if it returns,
then all that was ever requested has been dealt with exactly if no range was broken. -/
theorem returns_complete_iff {goal : Goal} {given : List PinnedModule} {cache : Cache} {limit : Nat}
    (hstart : Run.start goal given 1 cache base = .ok start)
    (hrun : finish? s limit start = some ended) :
    (∀ t r failure, Reachable s start t r → r.failure = some failure →
      ended.outcome = .error failure) ∧
    (∀ t r task rest, Reachable s start t r → r.isActive = true → r.agenda.tasks = task :: rest →
      task.requirement.isReadable = false → ended.outcome = .ok r.agenda.resolved) ∧
    ∀ modules, ended.outcome = .ok modules →
      (Complete s start ↔ ∀ q, Requested s start q → q.isReadable = true) := by
  have hsound := isSound_of_start hstart
  obtain ⟨_, hstart⟩ := start_ok hstart
  have hone : start.workers = 1 := by rw [hstart]; rfl
  refine ⟨fun t r failure hr hfailure => outcome_of_failure hrun hr hfailure, ?_, ?_⟩
  · intro t r task rest hr hactive htasks hbroken
    obtain ⟨hfailure, _⟩ := exists_task_of_isActive hactive
    have hworkers : r.workers ≤ 1 := hone ▸ workers_le hsound hr hfailure
    rw [eq_ended_of_idle hrun (hr.next hactive) (isActive_of_broken hworkers htasks hbroken),
      step_of_broken htasks hbroken, outcome, hfailure]
    rfl
  · intro modules hreturn
    constructor
    · exact readable_of_complete hsound hone
    · exact complete_of_readable hstart hrun (outcome_ok hreturn).1

/-- The two modules that need each other are dealt with completely, however often they come up. -/
theorem returns_complete_cycle :
    ∃ ended, finish? (.inMemory cycleRegistry none cycleShelf 0) 10 cycleStart = some ended ∧
      ended.outcome = .ok cycleModules ∧
      Complete (.inMemory cycleRegistry none cycleShelf 0) cycleStart := by
  obtain ⟨ended, hrun, hreturn⟩ := cycle_returns
  obtain ⟨_, _, hcomplete⟩ := returns_complete_iff cycle_starts hrun
  exact ⟨ended, hrun, hreturn, (hcomplete cycleModules hreturn).mpr cycle_isReadable⟩

/-- Three modules that need no others. The project asks for the second with a broken range. -/
def brokenShelf : Shelf where
  items := ["a", "b", "c"].map fun name => { uri := "https://" ++ name, manifest := { name } }

def brokenRegistry : Registry where
  tags := ["a", "b", "c"].map fun name => ("https://" ++ name, ["1.0.0"])

def brokenTask : Task where
  requirement := { name := "b", version := "release - 2" }
  parent := "svc (top-level)"

def brokenProject : Project where
  name := "svc"
  modules := [{ name := "a" }, brokenTask.requirement, { name := "c" }]

def brokenStart : Run where
  agenda := .start (Goal.project brokenProject).tasks [] []
  cache := { root := "/cache" }

/-- The first module alone is returned, without a failure. -/
theorem broken_returns :
    ∃ ended, finish? (.inMemory brokenRegistry none brokenShelf 0) 10 brokenStart = some ended ∧
      ended.outcome = .ok [{ name := "a", uri := "https://a", version := "1.0.0" }] ∧
      ¬Complete (.inMemory brokenRegistry none brokenShelf 0) brokenStart := by
  obtain ⟨ended, hrun, hreturn⟩ : ∃ ended,
      finish? (.inMemory brokenRegistry none brokenShelf 0) 10 brokenStart = some ended ∧
        ended.outcome = .ok [{ name := "a", uri := "https://a", version := "1.0.0" }] := by
    apply exists_returned
    decide +kernel
  refine ⟨ended, hrun, hreturn, ?_⟩
  intro hcomplete
  have hrequested : Requested (.inMemory brokenRegistry none brokenShelf 0) brokenStart
      brokenTask.requirement := by
    refine ⟨_, step (.inMemory brokenRegistry none brokenShelf 0) brokenStart, brokenTask,
      [{ requirement := { name := "c" }, parent := "svc (top-level)" }], .next .initial ?_, ?_, ?_,
      rfl⟩
    · decide +kernel
    · decide +kernel
    · decide +kernel
  have hreadable := readable_of_complete (isSound_start _ _ _ _) rfl hcomplete _ hrequested
  exact absurd hreadable (by decide +kernel)

end Run

end ModulePins
