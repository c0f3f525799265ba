import ModulePins.Resolution.Agenda

/-!
# Histories that grow

A demand is added to a history at its end. The channel of the history stays once a demand has pinned
it, and nothing changes for the version source when the same was asked for before.
-/

namespace ModulePins

/-- The constraint and the channel of a demand, whoever made it. -/
def Demand.wish (d : Demand) : String × String :=
  (d.constraint, d.channel)

/-- What a requirement asks for; a broken range asks for nothing. -/
def Requirement.wish? (q : Requirement) : Option (String × String) :=
  (Agenda.demand { requirement := q, parent := "" }).toOption.map Demand.wish

/-- What is asked for does not depend on who asks. -/
theorem demand_eq_map (task : Task) :
    Agenda.demand task =
      (Agenda.demand { requirement := task.requirement, parent := "" }).map
        fun d => { d with parent := task.parent } := by
  unfold Agenda.demand
  by_cases hempty : task.requirement.version = ""
  · simp [hempty, pure, Except.pure, Except.map]
  · cases hread : isConstraint task.requirement.version with
    | error fault => simp [hempty, hread, bind, Except.bind, Except.map]
    | ok isRange =>
      cases isRange <;> simp [hempty, hread, bind, Except.bind, pure, Except.pure, Except.map]

theorem wish?_of_demand {task : Task} {d : Demand} (h : Agenda.demand task = .ok d) :
    task.requirement.wish? = some d.wish := by
  rw [demand_eq_map] at h
  unfold Requirement.wish?
  cases hd : Agenda.demand { requirement := task.requirement, parent := "" } with
  | error fault => simp [hd, Except.map] at h
  | ok asked =>
    simp only [hd, Except.map, Except.ok.injEq] at h
    rw [← h]
    rfl

namespace History

variable {history : History} {d : Demand}

/-- What the version source is asked for a repository with this history. -/
def query (history : History) (uri : String) : Query :=
  { url := uri, channel := history.channel, constraints := history.constraints }

theorem channel_append_of_mem (more : History) (hd : d ∈ history)
    (hoff : Demand.isOffStable d.channel = true) :
    History.channel (history ++ more) = history.channel := by
  have hsome : (history.pinning?).isSome = true := by
    rw [pinning?, List.find?_isSome]
    exact ⟨d, hd, hoff⟩
  obtain ⟨pinned, hpinned⟩ := Option.isSome_iff_exists.mp hsome
  have happend : History.pinning? (history ++ more) = some pinned := by
    rw [pinning?] at hpinned ⊢
    rw [List.find?_append, hpinned, Option.some_or]
  simp [channel, hpinned, happend]

theorem pinning?_some (h : history.pinning? = some d) :
    d ∈ history ∧ Demand.isOffStable d.channel = true := by
  have hoff := List.find?_some h
  exact ⟨List.mem_of_find?_eq_some h, hoff⟩

theorem isOffStable_channel (h : history.channel ≠ "") :
    Demand.isOffStable history.channel = true := by
  cases hpinned : history.pinning? with
  | none => simp [channel, hpinned] at h
  | some d => simpa [channel, hpinned] using (pinning?_some hpinned).2

/-- More demands leave the channel as it is, or give one to a history that had none. -/
theorem channel_append (history more : History) :
    History.channel (history ++ more) = history.channel ∨
      history.channel = "" ∧ History.channel (history ++ more) ≠ "" := by
  cases hpinned : history.pinning? with
  | none =>
    have hfree : history.channel = "" := by simp [channel, hpinned]
    by_cases hsame : History.channel (history ++ more) = ""
    · exact .inl (hsame.trans hfree.symm)
    · exact .inr ⟨hfree, hsame⟩
  | some d =>
    obtain ⟨hd, hoff⟩ := pinning?_some hpinned
    exact .inl (channel_append_of_mem more hd hoff)

theorem channel_eq_or_mem (history : History) :
    history.channel = "" ∨ ∃ d ∈ history, d.channel = history.channel := by
  cases hpinned : history.pinning? with
  | none => exact .inl (by simp [channel, hpinned])
  | some d => exact .inr ⟨d, List.mem_of_find?_eq_some hpinned, by simp [channel, hpinned]⟩

theorem mem_constraints (history : History) (text : String) :
    text ∈ history.constraints ↔ text ≠ "" ∧ ∃ d ∈ history, d.constraint = text := by
  simp only [constraints, List.mem_filter, List.mem_map, ne_eq, decide_eq_true_eq, and_comm]

/-- What was asked for before changes nothing. -/
theorem channel_append_of_wish (h : d.wish ∈ history.map Demand.wish) :
    History.channel (history ++ [d]) = history.channel := by
  by_cases hoff : Demand.isOffStable d.channel = true
  · obtain ⟨old, hold, hwish⟩ := List.mem_map.mp h
    have hchannel : old.channel = d.channel := congrArg Prod.snd hwish
    exact channel_append_of_mem [d] hold (hchannel ▸ hoff)
  · simp [channel, pinning?, List.find?_append, hoff]

theorem mem_constraints_append_of_wish (h : d.wish ∈ history.map Demand.wish) (text : String) :
    text ∈ History.constraints (history ++ [d]) ↔ text ∈ history.constraints := by
  obtain ⟨old, hold, hwish⟩ := List.mem_map.mp h
  have hconstraint : old.constraint = d.constraint := congrArg Prod.fst hwish
  rw [mem_constraints, mem_constraints]
  constructor
  · rintro ⟨hne, asked, hasked, htext⟩
    refine ⟨hne, ?_⟩
    rcases List.mem_append.mp hasked with hasked | hasked
    · exact ⟨asked, hasked, htext⟩
    · rw [List.mem_singleton] at hasked
      exact ⟨old, hold, by rw [hconstraint, ← hasked, htext]⟩
  · rintro ⟨hne, asked, hasked, htext⟩
    exact ⟨hne, asked, List.mem_append_left _ hasked, htext⟩

end History

end ModulePins
