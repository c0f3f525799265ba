import ModulePins.Proofs.Resolution.Ending

/-!
# Steadfast runs

A run is steadfast when it never replaces a chosen module by another one. It then fetches one
manifest for a name, and keeps it to the end.
-/

namespace ModulePins

namespace Run

variable {s t : Surroundings} {r r' start : Run}

/-- Whatever is chosen in the course of a run stays chosen. -/
def Steadfast (s : Surroundings) (start : Run) : Prop :=
  ∀ t r, Reachable s start t r → r.isActive = true → ∀ name m,
    (r.agenda.find? name).bind Entry.chosen = some m →
      ((step t r).agenda.find? name).bind Entry.chosen = some m

theorem Steadfast.of_reachable (h : Steadfast s start) (hr : Reachable s start t r) :
    Steadfast t r :=
  fun _ _ hlater => h _ _ (hr.trans hlater)

/-- The manifest on record under a name is that of the module chosen and expanded there. -/
def Backed (r : Run) (name : String) : Prop :=
  ∃ e m, r.agenda.find? name = some e ∧ e.chosen = some m ∧ e.expanded = some m

theorem Dealt.backed {task : Task} {rest : List Task} {m : PinnedModule} {entry : Entry}
    {fetched : Option ModuleManifest} {name : String}
    (h : Dealt s r r' task rest m entry fetched) (hr : name = m.name ∨ r.Backed name) :
    r'.Backed name := by
  by_cases hname : name = m.name
  · exact ⟨entry, m, by rw [h.find, if_pos hname], h.chosen, h.expanded⟩
  · obtain ⟨e, old, hfind, hold⟩ := hr.resolve_left hname
    exact ⟨e, old, by rw [h.find, if_neg hname, hfind], hold⟩

theorem backed_of_recorded {tasks : List Task} {replacements : List (String × String)}
    {given : List PinnedModule} {base : Path} {cache : Cache} {workers : Nat}
    (hstart : start = { agenda := .start tasks replacements given base, cache, workers })
    (h : Reachable s start t r) (hfailure : r.failure = none) {name : String}
    {manifest : ModuleManifest} (hget : r.manifests.get? name = some manifest) :
    r.Backed name := by
  subst hstart
  refine invariant_of_transition
    (P := fun r => ∀ name manifest, r.manifests.get? name = some manifest → r.Backed name)
    (isSound_start tasks replacements given base) ?_ ?_ h hfailure name manifest hget
  · intro name manifest hget
    cases hget
  · intro _ _ r r' _ _ hr htransition hnone name manifest hget
    rcases htransition.lost_or_dealt hnone with
      ⟨_, _, _, _, _, rfl⟩ | ⟨_, _, m, _, fetched, hdealt⟩
    · exact hr name manifest hget
    · apply hdealt.backed
      by_cases hname : name = m.name
      · exact .inl hname
      · right
        rw [hdealt.manifests] at hget
        cases fetched with
        | none => exact hr name manifest hget
        | some served => exact hr name manifest (by simpa [hname] using hget)

theorem Steadfast.keeps_manifest (h : Steadfast s start) (hsound : start.agenda.IsSound)
    (hreach : Reachable s start t r) (hfailure : r.failure = none) {name : String}
    {manifest : ModuleManifest} (hbacked : start.Backed name)
    (hget : start.manifests.get? name = some manifest) :
    r.manifests.get? name = some manifest := by
  suffices hboth : r.Backed name ∧ r.manifests.get? name = some manifest from hboth.2
  induction hreach with
  | initial => exact ⟨hbacked, hget⟩
  | @next t r hr hactive ih =>
    have hnone := (exists_task_of_isActive hactive).1
    obtain ⟨hbacked, hget⟩ := ih hnone
    have hstays := h t r hr hactive name
    rcases (step_transition (isSound_reachable hsound hr hnone) hactive).lost_or_dealt hfailure with
      ⟨_, _, _, _, _, heq⟩ | ⟨_, _, m, entry, fetched, hdealt⟩
    · rw [heq]
      exact ⟨hbacked, hget⟩
    · refine ⟨hdealt.backed (.inr hbacked), ?_⟩
      rw [hdealt.manifests]
      cases hfetched : fetched with
      | none => exact hget
      | some served =>
        by_cases hname : name = m.name
        · -- The module stays, and it was expanded before, so nothing is fetched for it.
          obtain ⟨e, old, hfind, hchosen, hexpanded⟩ := hbacked
          have hsame : some m = some old := by
            rw [← hstays old (by rw [hfind, Option.bind_some, hchosen]), hdealt.find, if_pos hname,
              Option.bind_some, hdealt.chosen]
          obtain ⟨hnew, _⟩ := hdealt.fresh served hfetched
          rw [← hname, hfind, Option.bind_some, hexpanded, hsame] at hnew
          exact absurd rfl hnew
        · simpa [hname] using hget

/-- The states that a run goes through in at most `limit` steps. -/
def visited (s : Surroundings) : Nat → Run → List (Surroundings × Run)
  | 0, r => [(s, r)]
  | limit + 1, r => (s, r) :: if r.isActive then visited s.next limit (step s r) else []

theorem mem_visited {limit : Nat} {ended : Run} (hrun : finish? s limit start = some ended)
    (h : Reachable s start t r) : (t, r) ∈ visited s limit start := by
  induction limit generalizing s start with
  | zero =>
    rw [finish?] at hrun
    split at hrun
    · cases hrun
    · rename_i hidle
      rcases h.eq_or_step with ⟨rfl, rfl⟩ | ⟨hactive, _⟩
      · exact List.mem_singleton_self _
      · exact absurd hactive hidle
  | succ limit ih =>
    rw [finish?] at hrun
    rw [visited]
    rcases h.eq_or_step with ⟨rfl, rfl⟩ | ⟨hactive, hlater⟩
    · exact List.mem_cons_self
    · rw [if_pos hactive] at hrun ⊢
      exact List.mem_cons_of_mem _ (ih hrun hlater)

/-- Whether a run that ends is steadfast can be read off its states. -/
theorem steadfast_of_visited {limit : Nat} {ended : Run} (hrun : finish? s limit start = some ended)
    (h : ∀ state ∈ visited s limit start, state.2.isActive = true →
      ∀ entry ∈ state.2.agenda.entries.entries, ∀ m ∈ entry.2.chosen,
        ((step state.1 state.2).agenda.find? entry.1).bind Entry.chosen = some m) :
    Steadfast s start := by
  intro t r hr hactive name m hchosen
  obtain ⟨e, hfind, hchosen⟩ := Option.bind_eq_some_iff.mp hchosen
  exact h (t, r) (mem_visited hrun hr) hactive (name, e) (Ledger.mem_entries_of_get? hfind) m
    hchosen

/-- A module that the project and `b` both ask for, each in its own words. -/
def sharedShelf : Shelf where
  items := [
    { uri := "https://a", manifest := { name := "a" } },
    { uri := "https://b"
      manifest := { name := "b", modules := [{ name := "a", version := "^1.0.0" }] } }]

def sharedRegistry : Registry where
  tags := [("https://a", ["1.0.0", "1.2.0"]), ("https://b", ["1.0.0"])]

def sharedGoal : Goal :=
  .project { name := "svc", modules := [{ name := "a" }, { name := "b" }] }

def sharedStart : Run where
  agenda := .start sharedGoal.tasks [] []
  cache := { root := "/cache" }

def sharedModules : List PinnedModule :=
  [{ name := "a", uri := "https://a", version := "1.2.0" },
    { name := "b", uri := "https://b", version := "1.0.0" }]

theorem shared_starts : Run.start sharedGoal [] 1 { root := "/cache" } = .ok sharedStart :=
  rfl

theorem shared_returns :
    ∃ r, finish? (.inMemory sharedRegistry none sharedShelf 0) 10 sharedStart = some r ∧
      r.outcome = .ok sharedModules := by
  apply exists_returned
  decide +kernel

theorem shared_steadfast : Steadfast (.inMemory sharedRegistry none sharedShelf 0) sharedStart := by
  obtain ⟨_, hrun, _⟩ := shared_returns
  apply steadfast_of_visited hrun
  decide +kernel

end Run

end ModulePins
