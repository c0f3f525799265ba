import ModulePins.Proofs.Resolution.Closure

/-!
# How runs end

Each state of a run has one successor at most, so a run that ends passes through all of its states
and has a single last one. A state in which nothing can be done is the last: a failure in any state
is the failure of the whole run.
-/

namespace ModulePins

namespace Run

variable {s t u : Surroundings} {r r' start ended : Run}

theorem Reachable.trans {mid : Run} (h : Reachable s start t mid) (h' : Reachable t mid u r) :
    Reachable s start u r := by
  induction h' with
  | initial => exact h
  | next _ hactive ih => exact .next ih hactive

theorem Reachable.eq_or_step (h : Reachable s start t r) :
    (t = s ∧ r = start) ∨ start.isActive = true ∧ Reachable s.next (step s start) t r := by
  induction h with
  | initial => exact .inl ⟨rfl, rfl⟩
  | next _ hactive ih =>
    rcases ih with ⟨rfl, rfl⟩ | ⟨hstart, hlater⟩
    · exact .inr ⟨hactive, .initial⟩
    · exact .inr ⟨hstart, .next hlater hactive⟩

/-- Every state of a run leads to its last one. -/
theorem Reachable.to_ended (h : Reachable s start t r) (hended : Reachable s start u ended)
    (hidle : ended.isActive = false) : Reachable t r u ended := by
  induction h with
  | initial => exact hended
  | next _ hactive ih =>
    rcases ih.eq_or_step with ⟨_, rfl⟩ | ⟨_, hlater⟩
    · simp [hactive] at hidle
    · exact hlater

theorem eq_ended_of_idle {limit : Nat} (hrun : finish? s limit start = some ended)
    (h : Reachable s start t r) (hr : r.isActive = false) : ended = r := by
  obtain ⟨⟨_, hended⟩, hidle⟩ := reachable_of_finish? hrun
  rcases (h.to_ended hended hidle).eq_or_step with ⟨_, heq⟩ | ⟨hactive, _⟩
  · exact heq
  · simp [hr] at hactive

theorem finish?_of_idle (h : r.isActive = false) (limit : Nat) : finish? s limit r = some r := by
  cases limit <;> simp [finish?, h]

theorem exists_finish?_of_reachable (h : Reachable s start t r) (hidle : r.isActive = false) :
    ∃ limit, finish? s limit start = some r := by
  suffices hall : ∀ limit u mid, Reachable s start u mid → finish? u limit mid = some r →
      ∃ limit, finish? s limit start = some r from hall 0 t r h (finish?_of_idle hidle 0)
  intro limit u mid hmid hrun
  induction hmid generalizing limit with
  | initial => exact ⟨limit, hrun⟩
  | next _ hactive ih =>
    refine ih (limit + 1) ?_
    rw [finish?, if_pos hactive, hrun]

theorem isActive_of_failure {failure : Failure} (h : r.failure = some failure) :
    r.isActive = false := by
  simp [isActive, h]

theorem outcome_of_failure {limit : Nat} {failure : Failure}
    (hrun : finish? s limit start = some ended) (h : Reachable s start t r)
    (hr : r.failure = some failure) : ended.outcome = .error failure := by
  rw [eq_ended_of_idle hrun h (isActive_of_failure hr), outcome, hr]

theorem failure_eq_none_of_finish? {limit : Nat} (hrun : finish? s limit start = some ended)
    (hended : ended.failure = none) (h : Reachable s start t r) : r.failure = none := by
  cases hr : r.failure with
  | none => rfl
  | some failure =>
    rw [eq_ended_of_idle hrun h (isActive_of_failure hr), hr] at hended
    cases hended

theorem isSound_reachable (hsound : start.agenda.IsSound) (h : Reachable s start t r)
    (hfailure : r.failure = none) : r.agenda.IsSound := by
  refine invariant_of_transition (P := fun r => r.agenda.IsSound) hsound hsound ?_ h hfailure
  intro _ _ r r' _ _ hr htransition hnone
  exact isSound_transition hr htransition hnone

theorem name_of_chosen {tasks : List Task} {replacements : List (String × String)}
    {given : List PinnedModule} {base : Path} {cache : Cache} {workers : Nat}
    (hstart : start = { agenda := .start tasks replacements given base, cache, workers })
    (h : Reachable s start t r) (hfailure : r.failure = none) {name : String} {e : Entry}
    {m : PinnedModule} (hfind : r.agenda.find? name = some e) (hchosen : e.chosen = some m) :
    m.name = name := by
  subst hstart
  refine invariant_of_transition
    (P := fun r => ∀ name e m, r.agenda.find? name = some e → e.chosen = some m → m.name = name)
    (isSound_start tasks replacements given base) ?_ ?_ h hfailure name e m hfind hchosen
  · intro name e m hfind hchosen
    obtain ⟨given, _, hname, rfl⟩ := Agenda.find?_start name tasks replacements given base e hfind
    cases hchosen
    exact hname
  · intro _ _ r r' _ _ hr htransition hnone name e m hfind hchosen
    rcases htransition.lost_or_dealt hnone with ⟨_, _, _, _, _, rfl⟩ | ⟨_, _, _, _, _, hdealt⟩
    · exact hr name e m hfind hchosen
    · rw [hdealt.find] at hfind
      split at hfind
      · rename_i hname
        cases hfind
        rw [hdealt.chosen, Option.some.injEq] at hchosen
        rw [← hchosen, hname]
      · exact hr name e m hfind hchosen

end Run

end ModulePins
