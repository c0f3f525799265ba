import ModulePins.Proofs.Resolution.Constraints
import ModulePins.Proofs.Resolution.Growth
import ModulePins.Proofs.Resolution.Lockstep
import ModulePins.Proofs.Resolution.Steadfast

/-!
# Runs on a warm cache

A run that never gave up a module leaves in its cache every pick that it looked up. A second run
that starts with this cache takes the same steps, finds the same picks, and asks the version source
nothing.
-/

namespace ModulePins

theorem Pick.pinned_inj {pick other : Pick} {name uri : String}
    (h : pick.pinned name uri = other.pinned name uri) : pick = other := by
  obtain ⟨tag, mutable⟩ := pick
  obtain ⟨tag', mutable'⟩ := other
  simp only [pinned, PinnedModule.mk.injEq, true_and] at h
  rw [h.1, h.2]

namespace Run

variable {s t again : Surroundings} {r r' start ended : Run}

section Picked

variable {cache after : Cache} {asked queries : List Query} {uri : String} {before : Option Pick}
variable {history : History} {pick : Pick}

theorem Picked.found (htagged : s.versions.Tagged) (httl : 0 ≤ cache.ttl)
    (hbefore : ∀ p, before = some p → p.mutable = false) (hremote : Location.isLocal uri = false)
    (h : Picked s cache asked uri before history pick after queries) :
    (after.get s.now uri history.channel).outcome = .ok (some pick) := by
  cases h with
  | stays hwas hmutable => simp [hbefore pick hwas] at hmutable
  | here _ hlocal => simp [hremote] at hlocal
  | cached _ _ hget _ => exact hget
  | asked _ _ _ _ hanswer hput =>
    have hyoung : s.now - s.now ≤ cache.ttl := by omega
    rw [Cache.get_of_put hput, if_pos ⟨hyoung, htagged _ _ _ hanswer⟩]

end Picked

/-- A module is settled on a pick that the cache holds for a channel. -/
structure Stored (s : Surroundings) (last : Agenda) (r : Run) (name channel : String)
    (pick : Pick) : Prop where
  chosen : (r.agenda.find? name).bind Entry.chosen = some (pick.pinned name (last.uriOf name))
  found : (r.cache.get s.now (last.uriOf name) channel).outcome = .ok (some pick)

section Step

variable {task : Task} {rest : List Task} {d : Demand} {m : PinnedModule} {before : Entry}
variable {pick : Pick} {fetched : Option ModuleManifest} {last : Agenda} {name channel : String}

theorem PickedStep.chosen_self (h : PickedStep s r r' task rest d m before pick fetched) :
    (r'.agenda.find? m.name).bind Entry.chosen = some m := by
  rw [h.find_self]
  rfl

theorem PickedStep.stored (htagged : s.versions.Tagged) (httl : 0 ≤ r.cache.ttl)
    (hlast : r'.agenda.Grows last) (h : PickedStep s r r' task rest d m before pick fetched)
    (hbefore : ∀ p, before.pick = some p → p.mutable = false)
    (hremote : Location.isLocal m.uri = false) :
    Stored s last r' m.name (History.channel (before.history ++ [d])) pick where
  chosen := by
    rw [h.chosen_self, ← h.shape_last hlast]
  found := by
    rw [← h.uri_last hlast]
    exact h.picked.found htagged httl hbefore hremote

theorem Stored.of_transition (htagged : s.versions.Tagged) (httl : 0 ≤ r.cache.ttl)
    (hlocated : last.Apart) (hapart : Cache.KeysApart last.kept) (hlast : r'.agenda.Grows last)
    {e : Entry} (hfind : last.find? name = some e) (hgiven : e.given = false)
    (hplace : (last.uriOf name, channel) ∈ last.kept) (h : Stored s last r name channel pick)
    (hstays : ∀ m, (r.agenda.find? name).bind Entry.chosen = some m →
      (r'.agenda.find? name).bind Entry.chosen = some m)
    (htransition : Transition s r r') (hfailure : r'.failure = none) :
    Stored s last r' name channel pick where
  chosen := hstays _ h.chosen
  found := by
    cases htransition with
    | lost _ _ => exact h.found
    | failed hfailed _ => simp [hfailure] at hfailed
    | given hstep =>
      rw [hstep.cache]
      exact h.found
    | @picked _ _ _ d m before other _ hstep =>
      rcases hstep.picked.unchanged_or_asked with hsame | ⟨hanswer, hput⟩
      · rw [hsame]
        exact h.found
      by_cases hkey : cacheKey (last.uriOf name) channel =
          cacheKey m.uri (History.channel (before.history ++ [d]))
      · -- The pick is replaced by one for the same module, and the module stays.
        obtain ⟨huri, hchannel⟩ := hapart.eq_of_cacheKey hplace (hstep.mem_kept hlast) hkey
        have hname := hstep.eq_of_uri hlast hlocated hfind hgiven huri
        have hchosen := hstays _ h.chosen
        rw [hname, hstep.chosen_self, Option.some.injEq] at hchosen
        have hsame : other = pick :=
          Pick.pinned_inj ((hstep.shape_last hlast).symm.trans hchosen)
        subst hsame
        have hyoung : s.now - s.now ≤ r.cache.ttl := by omega
        rw [huri, hchannel, Cache.get_of_put hput, if_pos ⟨hyoung, htagged _ _ _ hanswer⟩]
      · rw [Cache.get_of_put_ne hput hkey]
        exact h.found

end Step

theorem ttl_reachable (hsound : start.agenda.IsSound) (h : Reachable s start t r)
    (hfailure : r.failure = none) : r.cache.ttl = start.cache.ttl := by
  refine invariant_of_transition (P := fun r => r.cache.ttl = start.cache.ttl) hsound rfl ?_ h
    hfailure
  intro _ _ r r' _ _ hr htransition hnone
  cases htransition with
  | lost _ _ => exact hr
  | failed hfailed _ => simp [hnone] at hfailed
  | given h => rw [h.cache, hr]
  | picked h => rw [h.picked.ttl_eq, hr]

section Steadfast

variable {limit : Nat} (hclock : s.Standing)
variable (htagged : s.versions.Tagged) (httl : 0 ≤ start.cache.ttl)
variable (hsound : start.agenda.IsSound) (hsteadfast : Steadfast s start)
variable (hrun : finish? s limit start = some ended) (hended : ended.failure = none)
variable (hlocated : ended.agenda.Apart) (hapart : Cache.KeysApart ended.agenda.kept)
include hclock htagged httl hsound hsteadfast hrun hended hlocated hapart

/-- What a steadfast run has stored is stored at its end. -/
theorem Stored.to_ended (hr : Reachable s start t r) {name channel : String} {pick : Pick}
    {e : Entry} (hfind : ended.agenda.find? name = some e) (hgiven : e.given = false)
    (hplace : (ended.agenda.uriOf name, channel) ∈ ended.agenda.kept)
    (h : Stored s ended.agenda r name channel pick) :
    Stored s ended.agenda ended name channel pick := by
  obtain ⟨⟨last, hreach⟩, hidle⟩ := reachable_of_finish? hrun
  suffices hall : ∀ u later, Reachable t r u later → Stored s ended.agenda later name channel pick
    from hall last ended (hr.to_ended hreach hidle)
  intro u later hto
  induction hto with
  | initial => exact h
  | @next u now hto hactive ih =>
    have hnow := hr.trans hto
    obtain rfl := hnow.eq_of_standing hclock
    have hnone := failure_eq_none_of_finish? hrun hended (hnow.next hactive)
    have hnowNone := failure_eq_none_of_finish? hrun hended hnow
    have hnextSound := isSound_reachable hsound (hnow.next hactive) hnone
    refine ih.of_transition htagged ?_ hlocated hapart ?_ hfind hgiven hplace
      (hsteadfast _ now hnow hactive name)
      (step_transition (isSound_reachable hsound hnow hnowNone) hactive) hnone
    · rw [ttl_reachable hsound hnow hnowNone]
      exact httl
    · exact ((hnow.next hactive).to_ended hreach hidle).grows hnextSound hended

/-- What was looked up in a step of a steadfast run is found at the end. -/
theorem found_of_pickedStep (hr : Reachable s start s r) (hactive : r.isActive = true) {task : Task}
    {rest : List Task} {d : Demand} {m : PinnedModule} {before : Entry} {pick : Pick}
    {fetched : Option ModuleManifest}
    (h : PickedStep s r (step s r) task rest d m before pick fetched)
    (hbefore : ∀ p, before.pick = some p → p.mutable = false)
    (hremote : Location.isLocal m.uri = false) :
    (ended.cache.get s.now m.uri (History.channel (before.history ++ [d]))).outcome =
      .ok (some pick) := by
  obtain ⟨⟨_, hreach⟩, hidle⟩ := reachable_of_finish? hrun
  have hnone := failure_eq_none_of_finish? hrun hended hr
  have hnext := hr.next hactive
  have hnextSound := isSound_reachable hsound hnext (failure_eq_none_of_finish? hrun hended hnext)
  have hlast := (hnext.to_ended hreach hidle).grows hnextSound hended
  obtain ⟨e, hfind, hgiven, _⟩ := hlast.entries _ _ h.find_self
  have hplace := h.mem_kept hlast
  have hstored := h.stored htagged (by rw [ttl_reachable hsound hr hnone]; exact httl) hlast
    hbefore hremote
  rw [h.uri_last hlast] at hplace ⊢
  exact (hstored.to_ended hclock htagged httl hsound hsteadfast hrun hended hlocated hapart hnext hfind
    hgiven hplace).found

end Steadfast

/-- After a steadfast run in which no two modules share a place, a second run at the same time on
the cache that the first one left returns the same modules with the same manifests, whatever its
version source is: it asks nothing. -/
theorem replay_warm {goal : Goal} {given : List PinnedModule} {cache : Cache} {base : Path}
    {limit : Nat} {modules : List PinnedModule} {serve : Fetch → Except Failure ModuleManifest}
    (hserve : s.Serves serve) (hagain : again.Serves serve) (hclock : s.Standing)
    (hclockAgain : again.Standing) (hnow : again.now = s.now)
    (hhonours : s.versions.Honours) (htagged : s.versions.Tagged) (httl : 0 ≤ cache.ttl)
    (hstart : Run.start goal given 1 cache base = .ok start)
    (hrun : finish? s limit start = some ended) (hreturn : ended.outcome = .ok modules)
    (hsteadfast : Steadfast s start) (hlocated : ended.agenda.Apart)
    (hapart : Cache.KeysApart ended.agenda.kept) :
    ∃ second replayed, Run.start goal given 1 ended.cache base = .ok second ∧
      finish? again limit second = some replayed ∧ replayed.outcome = .ok modules ∧
        replayed.manifests = ended.manifests ∧ replayed.queries = [] := by
  obtain ⟨hended, _⟩ := outcome_ok hreturn
  have hsound := isSound_of_start hstart
  -- Whatever the first run looked up in a step is in its last cache and satisfies the history of
  -- that step, so the second run finds it there.
  obtain ⟨notices, hreplayed⟩ := finish?_withCache again ended.cache (by
    intro t r hr hactive u hu notices
    obtain rfl := hr.eq_of_standing hclock
    have hsoundNow := isSound_reachable hsound hr (failure_eq_none_of_finish? hrun hended hr)
    have hnone := failure_eq_none_of_finish? hrun hended (hr.next hactive)
    have hservesAgain : u.Serves serve := fun before fetch => hu.manifests ▸ hagain before fetch
    refine step_withCache hserve hservesAgain hsoundNow hactive hnone ?_ notices
    intro task rest d m before pick fetched h hbefore hremote
    rw [hclockAgain.shows hu.now, hnow]
    exact ⟨found_of_pickedStep hclock htagged (cache_of_start hstart ▸ httl) hsound hsteadfast hrun
      hended hlocated hapart hr hactive h hbefore hremote,
      isUsable_iff.mpr (h.picked.satisfies hhonours)⟩)
    .initial hrun (.refl again) []
  refine ⟨_, _, start_withCache hstart ended.cache, hreplayed, ?_, rfl, rfl⟩
  exact hreturn

/-- The second run returns the same even though its version source fails. -/
theorem replay_warm_shared :
    ∃ ended second replayed,
      finish? (.inMemory sharedRegistry none sharedShelf 0) 10 sharedStart = some ended ∧
        Run.start sharedGoal [] 1 ended.cache = .ok second ∧
        finish? (.inMemory {} (some (.versionNotFound "offline")) sharedShelf 0) 10 second =
          some replayed ∧
        replayed.outcome = .ok sharedModules ∧ replayed.manifests = ended.manifests ∧
          replayed.queries = [] := by
  obtain ⟨ended, hrun, hmodules, hlocated, hapart⟩ : ∃ ended,
      finish? (.inMemory sharedRegistry none sharedShelf 0) 10 sharedStart = some ended ∧
        ended.outcome.toOption = some sharedModules ∧ ended.agenda.Apart ∧
          Cache.KeysApart ended.agenda.kept := by
    apply exists_of_any
    decide +kernel
  let s := Surroundings.inMemory sharedRegistry none sharedShelf 0
  let again := Surroundings.inMemory {} (some (.versionNotFound "offline")) sharedShelf 0
  have hserve : s.Serves fun fetch => sharedShelf.manifest fetch.uri fetch.version := fun _ _ => rfl
  have hagain : again.Serves fun fetch => sharedShelf.manifest fetch.uri fetch.version :=
    fun _ _ => rfl
  obtain ⟨second, replayed, hreplayed⟩ := replay_warm hserve hagain (fun _ => rfl) (fun _ => rfl) rfl
    (sharedRegistry.honours none) (Registry.tagged rfl none) (by decide) shared_starts hrun
    (ok_of_toOption hmodules) shared_steadfast hlocated hapart
  exact ⟨ended, second, replayed, hrun, hreplayed⟩

end Run

end ModulePins
