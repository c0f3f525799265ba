import ModulePins.Proofs.Resolution.Steadfast

/-!
# What is on record

A run keeps a manifest for every name that it met and for no other name, and each of them was served
by the store. Unlike closed runs, which lose no request, this goes for all runs: a request that is
lost is not met, and what was met before it stays on record.
-/

namespace ModulePins

namespace Run

variable {s t : Surroundings} {r r' start : Run}

/-- The invariant of all runs: the names met are those with a manifest on record, and manifests come
from the store. -/
structure Recorded (s : Surroundings) (r : Run) : Prop where
  met : ∀ name, name ∈ r.manifests.names ↔ name ∈ r.agenda.order
  expanded : ∀ name entry m, r.agenda.find? name = some entry → entry.expanded = some m →
    name ∈ r.agenda.order
  served : ∀ name manifest, r.manifests.get? name = some manifest →
    ∃ before fetch, (s.manifests before fetch).outcome = .ok manifest

theorem recorded_start (tasks : List Task) (replacements : List (String × String))
    (given : List PinnedModule) (base : Path) (cache : Cache) (workers : Nat) :
    Recorded s { agenda := .start tasks replacements given base, cache, workers } where
  met := fun _ => Iff.rfl
  expanded := by
    intro name entry m hfind hexpanded
    obtain ⟨_, _, _, rfl⟩ := Agenda.find?_start name tasks replacements given base entry hfind
    cases hexpanded
  served := by
    intro name manifest hget
    cases hget

theorem Dealt.recorded {task : Task} {rest : List Task} {m : PinnedModule} {entry : Entry}
    {fetched : Option ModuleManifest} (h : Dealt s r r' task rest m entry fetched)
    (hr : r.Recorded s) : r'.Recorded s where
  met := by
    intro name
    rw [h.mem_order, h.manifests]
    cases hfetched : fetched with
    | none =>
      -- The module was expanded before, so its name was met and has a manifest.
      obtain ⟨old, hold, hexpanded⟩ := Option.bind_eq_some_iff.mp (h.known hfetched)
      have hmet := hr.expanded _ _ _ hold hexpanded
      rw [Option.elim_none, hr.met]
      exact ⟨.inl, fun hn => hn.elim id fun heq => heq ▸ hmet⟩
    | some manifest => rw [Option.elim_some, Ledger.mem_names_put, hr.met, or_comm]
  expanded := by
    intro name e m' hfind hexpanded
    rw [h.mem_order]
    by_cases hname : name = m.name
    · exact .inr hname
    · rw [h.find, if_neg hname] at hfind
      exact .inl (hr.expanded name e m' hfind hexpanded)
  served := by
    intro name manifest hget
    rw [h.manifests] at hget
    cases hfetched : fetched with
    | none =>
      rw [hfetched] at hget
      exact hr.served name manifest hget
    | some served =>
      rw [hfetched, Option.elim_some, Ledger.get?_put] at hget
      split at hget
      · cases hget
        exact ⟨_, _, (h.fresh manifest hfetched).2.1⟩
      · exact hr.served name manifest hget

theorem recorded_reachable {tasks : List Task} {replacements : List (String × String)}
    {given : List PinnedModule} {base : Path} {cache : Cache} {workers : Nat}
    (hstart : start = { agenda := .start tasks replacements given base, cache, workers })
    (h : Reachable s start t r) (hfailure : r.failure = none) : r.Recorded s := by
  subst hstart
  refine invariant_of_transition (isSound_start tasks replacements given base)
    (recorded_start tasks replacements given base cache workers) ?_ h hfailure
  intro _ _ r r' _ _ hr htransition hnone
  rcases htransition.lost_or_dealt hnone with ⟨_, _, _, _, _, rfl⟩ | ⟨_, _, _, _, _, hdealt⟩
  · exact ⟨hr.met, hr.expanded, hr.served⟩
  · have hlater := hdealt.recorded ⟨hr.met, hr.expanded, hr.served⟩
    exact ⟨hlater.met, hlater.expanded, hlater.served⟩

/-- A run that returns has exactly one manifest on record for each of its modules, and the store has
served all of them. -/
theorem recorded_of_outcome {goal : Goal} {given : List PinnedModule} {cache : Cache} {base : Path}
    {limit : Nat} {modules : List PinnedModule}
    (hstart : Run.start goal given 1 cache base = .ok start)
    (hrun : finish? s limit start = some r) (hreturn : r.outcome = .ok modules) :
    r.manifests.names.Nodup ∧
      (∀ name, name ∈ r.manifests.names ↔ name ∈ modules.map PinnedModule.name) ∧
      ∀ entry ∈ r.manifests.entries,
        ∃ before fetch, (s.manifests before fetch).outcome = .ok entry.2 := by
  obtain ⟨⟨_, hreach⟩, _⟩ := reachable_of_finish? hrun
  obtain ⟨hfailure, rfl⟩ := outcome_ok hreturn
  have hsound := isSound_of_start hstart
  obtain ⟨_, hstart⟩ := start_ok hstart
  have hempty : start.manifests.names.Nodup := by
    rw [hstart]
    exact List.nodup_nil
  have hnodup := nodup_manifests_reachable hsound hempty hreach hfailure
  have hr := recorded_reachable hstart hreach hfailure
  have hnames : r.agenda.resolved.map PinnedModule.name = r.agenda.order := by
    apply Agenda.map_name_resolved
    intro name hname
    obtain ⟨manifest, hget⟩ := (Ledger.mem_names _ _).mp ((hr.met name).mpr hname)
    obtain ⟨e, m, hfind, hchosen, _⟩ := backed_of_recorded hstart hreach hfailure hget
    exact ⟨m, by rw [hfind, Option.bind_some, hchosen],
      name_of_chosen hstart hreach hfailure hfind hchosen⟩
  refine ⟨hnodup, ?_, ?_⟩
  · intro name
    rw [hnames]
    exact hr.met name
  · rintro ⟨name, manifest⟩ hentry
    exact hr.served name manifest (Ledger.get?_of_mem_entries hnodup hentry)

end Run

end ModulePins
