import ModulePins.Proofs.Resolution.Constraints
import ModulePins.Proofs.Resolution.Growth
import ModulePins.Proofs.Resolution.Highest
import ModulePins.Proofs.Resolution.Steadfast

/-!
# Picks are answers to whole histories

A pick from the cache was made for an earlier history and is only checked against what was asked for
since. In a run that starts on an empty cache, on a registry of releases, it makes no difference: at
the end every module has the version that the registry picks for its complete history.
-/

namespace ModulePins

namespace Run

variable {s : Surroundings} {r r' start ended : Run}

/-- A pick for a repository and channel that `source` would make for some of the constraints. -/
def AnswersPart (source : VersionSource) (uri channel : String) (constraints : List String)
    (pick : Pick) : Prop :=
  ∃ texts, (∀ text ∈ texts, text ∈ constraints) ∧
    source [] { url := uri, channel, constraints := texts } = .ok pick

/-- The invariant of runs that start on an empty cache: immutable picks are answers to the history
of their module, and what the cache holds for a module are answers to part of it. -/
structure Answered (source : VersionSource) (last : Agenda) (r : Run) : Prop where
  picked : ∀ name e, r.agenda.find? name = some e → e.given = false →
    ∃ pick, e.chosen = some (pick.pinned name (last.uriOf name)) ∧
      (pick.mutable = false → source [] (e.history.query (last.uriOf name)) = .ok pick)
  cached : ∀ name e, last.find? name = some e → e.given = false → ∀ channel,
    (last.uriOf name, channel) ∈ last.kept → ∀ later found,
      (r.cache.get later (last.uriOf name) channel).outcome = .ok (some found) →
        AnswersPart source (last.uriOf name) channel (r.agenda.history name).constraints found

theorem AnswersPart.mono {source : VersionSource} {uri channel : String}
    {constraints more : List String} {pick : Pick}
    (h : AnswersPart source uri channel constraints pick)
    (hall : ∀ text ∈ constraints, text ∈ more) : AnswersPart source uri channel more pick := by
  obtain ⟨texts, htexts, hanswer⟩ := h
  exact ⟨texts, fun text ht => hall text (htexts text ht), hanswer⟩

section Registry

variable {registry : Registry} {failing : Option Failure} {last : Agenda}

/-- An immutable pick is an answer to the history, if what the cache holds are answers to part of
it. -/
theorem Picked.answers {cache after : Cache} {asked queries : List Query} {uri : String}
    {before : Option Pick} {history : History} {pick : Pick} (hranked : registry.IsRanked)
    (hversions : s.versions = registry.source failing)
    (hcached : ∀ found, (cache.get s.now uri history.channel).outcome = .ok (some found) →
      AnswersPart (registry.source failing) uri history.channel history.constraints found)
    (h : Picked s cache asked uri before history pick after queries)
    (himmutable : pick.mutable = false) :
    registry.source failing [] (history.query uri) = .ok pick := by
  cases h with
  | stays _ hmutable => simp [himmutable] at hmutable
  | here _ _ => cases himmutable
  | cached _ _ hget husable =>
    obtain ⟨texts, htexts, hanswer⟩ := hcached pick hget
    refine Registry.source_of_tighter hranked ?_ ?_ ?_ htexts himmutable
      (isUsable_iff.mp husable himmutable) hanswer
    · rfl
    · rfl
    · rfl
  | asked _ _ _ _ hanswer _ =>
    rw [hversions] at hanswer
    exact hanswer

theorem Answered.cached_of_grows {source : VersionSource} (hr : r.Answered source last)
    (hgrows : r.agenda.Grows r'.agenda) {name channel : String} {e : Entry} {later : Int}
    {found : Pick} (hfind : last.find? name = some e) (hgiven : e.given = false)
    (hplace : (last.uriOf name, channel) ∈ last.kept)
    (hget : (r.cache.get later (last.uriOf name) channel).outcome = .ok (some found)) :
    AnswersPart source (last.uriOf name) channel (r'.agenda.history name).constraints found :=
  (hr.cached name e hfind hgiven channel hplace later found hget).mono fun _ ht =>
    hgrows.mem_constraints ht

section Step

variable {task : Task} {rest : List Task} {d : Demand} {m : PinnedModule} {before : Entry}
variable {pick : Pick} {fetched : Option ModuleManifest}

theorem PickedStep.history_self (h : PickedStep s r r' task rest d m before pick fetched) :
    r'.agenda.history m.name = before.history ++ [d] :=
  r'.agenda.history_of_find? m.name h.find_self

theorem PickedStep.exists_last (h : PickedStep s r r' task rest d m before pick fetched)
    (hgrows : r'.agenda.Grows last) : ∃ e, last.find? m.name = some e ∧ e.given = false := by
  obtain ⟨e, hfind, hgiven, _⟩ := hgrows.entries _ _ h.find_self
  exact ⟨e, hfind, hgiven⟩

/-- The pick of a step is an answer to the history for which it is made. -/
theorem PickedStep.answers (hranked : registry.IsRanked)
    (hversions : s.versions = registry.source failing)
    (hr : r.Answered (registry.source failing) last)
    (h : PickedStep s r r' task rest d m before pick fetched) (hgrows : r.agenda.Grows r'.agenda)
    (hlast : r'.agenda.Grows last) (himmutable : pick.mutable = false) :
    registry.source failing [] (History.query (before.history ++ [d]) m.uri) = .ok pick := by
  refine h.picked.answers hranked hversions ?_ himmutable
  intro found hget
  obtain ⟨e, hfind, hgiven⟩ := h.exists_last hlast
  have hplace := h.mem_kept hlast
  rw [h.uri_last hlast] at hget hplace ⊢
  have hpart := hr.cached_of_grows hgrows hfind hgiven hplace hget
  rw [h.history_self] at hpart
  exact hpart

theorem PickedStep.answered (hranked : registry.IsRanked)
    (hversions : s.versions = registry.source failing) (hlocated : last.Apart)
    (hapart : Cache.KeysApart last.kept) (hr : r.Answered (registry.source failing) last)
    (h : PickedStep s r r' task rest d m before pick fetched) (hgrows : r.agenda.Grows r'.agenda)
    (hlast : r'.agenda.Grows last) : r'.Answered (registry.source failing) last where
  picked := by
    intro name e hfind hgiven
    rw [h.find] at hfind
    split at hfind
    · rename_i hname
      cases hfind
      subst hname
      refine ⟨pick, congrArg some (h.shape_last hlast), ?_⟩
      rw [← h.uri_last hlast]
      exact h.answers hranked hversions hr hgrows hlast
    · exact hr.picked name e hfind hgiven
  cached := by
    intro name e hfind hgiven channel hplace later found hget
    rcases h.picked.get_cases hapart (h.mem_kept hlast) hplace hget with
      hget | ⟨hanswer, huri, rfl, rfl⟩
    · exact hr.cached_of_grows hgrows hfind hgiven hplace hget
    · have hname := h.eq_of_uri hlast hlocated hfind hgiven huri
      rw [huri, hname, h.history_self]
      rw [hversions] at hanswer
      exact ⟨_, fun _ ht => ht, hanswer⟩

end Step

theorem answered_transition (hranked : registry.IsRanked)
    (hversions : s.versions = registry.source failing) (hlocated : last.Apart)
    (hapart : Cache.KeysApart last.kept) (hlast : r'.agenda.Grows last)
    (hr : r.Answered (registry.source failing) last) (h : Transition s r r')
    (hfailure : r'.failure = none) : r'.Answered (registry.source failing) last := by
  have hgrows := h.grows hfailure
  cases h with
  | lost _ _ => exact ⟨hr.picked, hr.cached⟩
  | failed hfailed _ => simp [hfailure] at hfailed
  | given h =>
    refine ⟨?_, ?_⟩
    · intro name e hfind hgiven
      rw [h.find] at hfind
      split at hfind
      · cases hfind
        simp [h.given] at hgiven
      · exact hr.picked name e hfind hgiven
    · intro name e hfind hgiven channel hplace later found hget
      rw [h.cache] at hget
      exact hr.cached_of_grows hgrows hfind hgiven hplace hget
  | picked h => exact h.answered hranked hversions hlocated hapart hr hgrows hlast

theorem answered_start {tasks : List Task} {replacements : List (String × String)}
    {given : List PinnedModule} {base : Path} {cache : Cache} {workers : Nat}
    {source : VersionSource} (hempty : cache.slots = []) :
    Answered source last { agenda := .start tasks replacements given base, cache, workers } where
  picked := by
    intro name e hfind hgiven
    obtain ⟨_, _, _, rfl⟩ := Agenda.find?_start name tasks replacements given base e hfind
    cases hgiven
  cached := by
    intro name e _ _ channel _ later found hget
    have hnone : cache.slot? (last.uriOf name) channel = none := by simp [Cache.slot?, hempty]
    simp [Cache.get, hnone, Report.ok] at hget

end Registry

/-- On a registry of releases and from an empty cache, every module of the result that is neither
given nor mutable has the version that the registry picks for the complete history of the module,
whatever the times at which the steps of the run are taken. -/
theorem resolved_answered {goal : Goal} {given : List PinnedModule} {cache : Cache} {base : Path}
    {registry : Registry} {failing : Option Failure} {limit : Nat}
    {modules : List PinnedModule} (hranked : registry.IsRanked)
    (hversions : s.versions = registry.source failing) (hempty : cache.slots = [])
    (hstart : Run.start goal given 1 cache base = .ok start)
    (hrun : finish? s limit start = some ended) (hreturn : ended.outcome = .ok modules)
    (hlocated : ended.agenda.Apart) (hapart : Cache.KeysApart ended.agenda.kept) :
    ∀ m ∈ modules, m.name ∉ (goal.injected given).map PinnedModule.name → m.mutable = false →
      s.versions [] ((ended.agenda.history m.name).query m.uri) = .ok { tag := m.version } := by
  obtain ⟨⟨_, hreach⟩, _⟩ := reachable_of_finish? hrun
  obtain ⟨hfailure, rfl⟩ := outcome_ok hreturn
  obtain ⟨_, rfl⟩ := start_ok hstart
  -- The invariant speaks of the places that the last agenda tells, so it is claimed only of states
  -- from which that agenda grew.
  obtain ⟨hgivenAmong, hall⟩ := invariant_of_transition
    (P := fun r => r.GivenAmong ((goal.injected given).map PinnedModule.name) ∧
      (r.agenda.Grows ended.agenda → r.Answered (registry.source failing) ended.agenda))
    (isSound_start _ _ _ _) ⟨givenAmong_start _ _ _ _ _ _, fun _ => answered_start hempty⟩
    (fun now later r r' _ _ hr htransition hnone =>
      ⟨givenAmong_transition hr.1 htransition hnone, fun hlast =>
        answered_transition (s := { s with now, later }) hranked hversions hlocated hapart hlast
          (hr.2 ((htransition.grows hnone).trans hlast)) htransition hnone⟩)
    hreach hfailure
  have hsound := isSound_reachable (isSound_start _ _ _ _) hreach hfailure
  have hanswered := hall (Agenda.Grows.refl _)
  intro m hm hnew himmutable
  obtain ⟨name, _, hchosen⟩ := List.mem_filterMap.mp hm
  obtain ⟨e, hfind, hchosen⟩ := Option.bind_eq_some_iff.mp hchosen
  cases hgiven : e.given with
  | true =>
    obtain ⟨own, hown, hname⟩ := hsound name e hfind hgiven
    rw [hchosen, Option.some.injEq] at hown
    rw [hown, hname] at hnew
    exact absurd (hgivenAmong name e hfind hgiven) hnew
  | false =>
    obtain ⟨pick, hpick, hanswer⟩ := hanswered.picked name e hfind hgiven
    rw [hchosen, Option.some.injEq] at hpick
    subst hpick
    have himmutable : pick.mutable = false := himmutable
    rw [hversions]
    change registry.source failing []
      ((ended.agenda.history name).query (ended.agenda.uriOf name)) = .ok { tag := pick.tag }
    rw [ended.agenda.history_of_find? name hfind, hanswer himmutable, ← himmutable]

/-- One microsecond to the second step, and from then on half an hour from the start. -/
def sharedClock : Nat → Int
  | 0 => 1
  | _ => 1800000000

/-- `a` is picked for the project, and found in the cache, just before it expires there, when `b`
asks for it too. -/
theorem resolved_answered_shared :
    ∃ ended,
      finish? (.inMemory sharedRegistry none sharedShelf 0 sharedClock) 10 sharedStart =
          some ended ∧
        ended.outcome = .ok sharedModules ∧
        sharedRegistry.pick ((ended.agenda.history "a").query "https://a") =
          .ok { tag := "1.2.0" } := by
  have hranked : sharedRegistry.IsRanked := by
    apply Registry.isRanked_of_tags
    · decide +kernel
    · decide +kernel
  obtain ⟨ended, hrun, hmodules, hlocated, hapart⟩ : ∃ ended,
      finish? (.inMemory sharedRegistry none sharedShelf 0 sharedClock) 10 sharedStart =
          some ended ∧
        ended.outcome.toOption = some sharedModules ∧ ended.agenda.Apart ∧
          Cache.KeysApart ended.agenda.kept := by
    apply exists_of_any
    decide +kernel
  have hreturn := ok_of_toOption hmodules
  have hversions : (Surroundings.inMemory sharedRegistry none sharedShelf 0 sharedClock).versions =
      sharedRegistry.source none := rfl
  exact ⟨ended, hrun, hreturn,
    resolved_answered hranked hversions rfl shared_starts hrun hreturn hlocated hapart
      { name := "a", uri := "https://a", version := "1.2.0" } (by decide) (by decide) rfl⟩

end Run

end ModulePins
