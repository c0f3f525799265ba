import ModulePins.Proofs.Resolution.Divided

/-!
# The halves of a divided run

A divided run and the runs of its two parts tell on each other: while the run does not fail, its
parts are states of their own runs, and when the parts come to an end without a failure, so does the
run.
-/

namespace ModulePins

namespace Run

variable {s u : Surroundings} {r t t' start ended : Run} {p : String → Bool}
variable {serve : Fetch → Except Failure ModuleManifest}

variable {first : Agenda} {all : Requirement → Prop}

/-- All states of a run without a failure have a part, which is a state of the run of the part. -/
theorem exists_part (hclock : s.Standing) (hserve : s.Serves serve)
    (hstateless : s.versions.Stateless)
    (hdivided : Divided serve first p all) (hstart : start.Within first all)
    (hpart : Part p (KeyOf first all p) start t) (h : Reachable s start u r)
    (hnone : r.failure = none) :
    r.Within first all ∧ ∃ t', Reachable s t s t' ∧ Part p (KeyOf first all p) r t' := by
  induction h with
  | initial => exact ⟨hstart, t, .initial, hpart⟩
  | @next u r hreached hactive ih =>
    obtain rfl := hreached.eq_of_standing hclock
    obtain ⟨hnone', task, rest, hfirst⟩ := exists_task_of_isActive hactive
    obtain ⟨hr, t', hreach, hpart'⟩ := ih hnone'
    have htransition := step_transition (s := u) hr.sound hactive
    refine ⟨within_transition hserve hdivided hr htransition hnone, ?_⟩
    by_cases hp : p task.requirement.name = true
    · have hnext := hreach.next (hpart'.isActive hactive hfirst hp)
      rw [hclock.next_eq] at hnext
      exact ⟨_, hnext, hpart'.next hserve hstateless hdivided hr hactive hfirst hp⟩
    · exact ⟨t', hreach, hpart'.skip hserve hdivided hr hnone' hfirst (by simpa using hp)
        htransition hnone⟩

/-- When the run ends without a failure, so does the run of its part, in the part of the last
state. -/
theorem exists_ended_part {limit : Nat} (hclock : s.Standing) (hserve : s.Serves serve)
    (hstateless : s.versions.Stateless)
    (hdivided : Divided serve first p all) (hstart : start.Within first all)
    (hpart : Part p (KeyOf first all p) start t) (hrun : finish? s limit start = some ended)
    (hended : ended.failure = none) :
    ∃ limit t', finish? s limit t = some t' ∧ Part p (KeyOf first all p) ended t' := by
  obtain ⟨⟨_, hreach⟩, hidle⟩ := reachable_of_finish? hrun
  obtain ⟨hwithin, t', hreach', hpart'⟩ :=
    exists_part hclock hserve hstateless hdivided hstart hpart hreach hended
  have hdone := tasks_eq_nil_of_idle hidle hended hwithin.workers
  have hidle' : t'.isActive = false := by simp [isActive, hpart'.agenda.tasks, hdone]
  obtain ⟨limit', hrun'⟩ := exists_finish?_of_reachable hreach' hidle'
  exact ⟨limit', t', hrun', hpart'⟩

/-- A state that falls into two parts whose runs end in `ended` and `ended'`. -/
structure Halves (s : Surroundings) (first : Agenda) (all : Requirement → Prop) (p : String → Bool)
    (limit limit' : Nat) (ended ended' r : Run) : Prop where
  within : r.Within first all
  own : ∃ t, Part p (KeyOf first all p) r t ∧ finish? s limit t = some ended
  others : ∃ t, Part (fun name => !p name) (KeyOf first all fun name => !p name) r t ∧
    finish? s limit' t = some ended'

variable {limit limit' : Nat} {ended' : Run}

theorem Halves.symm (h : Halves s first all p limit limit' ended ended' r) :
    Halves s first all (fun name => !p name) limit' limit ended' ended r where
  within := h.within
  own := h.others
  others := by simpa using h.own

/-- If the run of a part does not fail, nor does the run when it deals with the part. -/
theorem Halves.next {task : Task} {rest : List Task} (hclock : s.Standing) (hserve : s.Serves serve)
    (hstateless : s.versions.Stateless) (hdivided : Divided serve first p all)
    (h : Halves s first all p limit limit' ended ended' r) (hended : ended.failure = none)
    (hactive : r.isActive = true) (hfirst : r.agenda.tasks = task :: rest)
    (hp : p task.requirement.name = true) :
    ∃ fewer, limit = fewer + 1 ∧ Halves s first all p fewer limit' ended ended' (step s r) := by
  obtain ⟨t, hpart, hrun⟩ := h.own
  obtain ⟨t', hpart', hrun'⟩ := h.others
  have hactive' := hpart.isActive hactive hfirst hp
  have hnext := hpart.next hserve hstateless hdivided h.within hactive hfirst hp
  cases limit with
  | zero => simp [finish?, hactive'] at hrun
  | succ fewer =>
    rw [finish?, if_pos hactive', hclock.next_eq] at hrun
    have hnone : (step s r).failure = none :=
      hnext.failure.symm.trans (failure_eq_none_of_finish? hrun hended .initial)
    have htransition := step_transition (s := s) h.within.sound hactive
    refine ⟨fewer, rfl, within_transition hserve hdivided h.within htransition hnone,
      ⟨step s t, hnext, hrun⟩, t', ?_, hrun'⟩
    exact hpart'.skip hserve hdivided.symm h.within (exists_task_of_isActive hactive).1 hfirst
      (by simpa using hp) htransition hnone

theorem Halves.failure (h : Halves s first all p limit limit' ended ended' r)
    (hended : ended.failure = none) : r.failure = none := by
  obtain ⟨t, hpart, hrun⟩ := h.own
  exact hpart.failure.symm.trans (failure_eq_none_of_finish? hrun hended .initial)

theorem Halves.exists_ended (hclock : s.Standing) (hserve : s.Serves serve)
    (hstateless : s.versions.Stateless) (hdivided : Divided serve first p all)
    (hended : ended.failure = none)
    (hended' : ended'.failure = none) (h : Halves s first all p limit limit' ended ended' r) :
    ∃ limit last, finish? s limit r = some last ∧ last.failure = none := by
  -- Every step of the run is a step of one of the parts, so their limits add up to one for the run.
  induction hsteps : limit + limit' using Nat.strongRecOn generalizing r limit limit' with
  | ind steps ih =>
    cases hactive : r.isActive with
    | false => exact ⟨0, r, finish?_of_idle hactive 0, h.failure hended⟩
    | true =>
      obtain ⟨_, task, rest, hfirst⟩ := exists_task_of_isActive hactive
      obtain ⟨fewer, fewer', hless, hnext⟩ : ∃ fewer fewer', fewer + fewer' < steps ∧
          Halves s first all p fewer fewer' ended ended' (step s r) := by
        cases hp : p task.requirement.name with
        | true =>
          obtain ⟨fewer, rfl, hnext⟩ :=
            h.next hclock hserve hstateless hdivided hended hactive hfirst hp
          exact ⟨fewer, limit', by omega, hnext⟩
        | false =>
          obtain ⟨fewer, rfl, hnext⟩ :=
            h.symm.next hclock hserve hstateless hdivided.symm hended' hactive hfirst (by simp [hp])
          exact ⟨limit, fewer, by omega, by simpa using hnext.symm⟩
      obtain ⟨more, last, hrun, hlast⟩ := ih _ hless hnext rfl
      refine ⟨more + 1, last, ?_, hlast⟩
      rw [finish?, if_pos hactive, hclock.next_eq, hrun]

end Run

end ModulePins
