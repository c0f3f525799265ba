import ModulePins.Proofs.Cache
import ModulePins.Proofs.Resolution.Registry
import ModulePins.Proofs.Resolution.Transition

/-!
# Steady surroundings

Surroundings are steady when they answer a question the same way at any time and know only finitely
many requirements. In them every module is in one of few conditions: its last pick was made for its
whole history, and what the cache keeps in its place is that pick or belongs to another module.
-/

namespace ModulePins

/-- A manifest that is served for a fetch declares a name. -/
def Surroundings.Declares (s : Surroundings) (name : String) (fetch : Fetch) : Prop :=
  ∃ before manifest, (s.manifests before fetch).outcome = .ok manifest ∧ manifest.name = name

/-- Surroundings whose answers stay the same, with `requirements` for all that manifests list. -/
structure Surroundings.Steady (s : Surroundings) (requirements : List Requirement) : Prop where
  versions : ∀ asked asked' q, s.versions asked q = s.versions asked' q
  unordered : ∀ asked q q' p, q'.url = q.url → q'.channel = q.channel →
    q'.allowBranches = q.allowBranches →
    (∀ text, text ∈ q'.constraints ↔ text ∈ q.constraints) →
    s.versions asked q = .ok p → s.versions asked q' = .ok p
  manifests : ∀ before before' fetch,
    (s.manifests before fetch).outcome = (s.manifests before' fetch).outcome
  listed : ∀ before fetch manifest, (s.manifests before fetch).outcome = .ok manifest →
    ∀ q ∈ manifest.modules, q ∈ requirements
  width : ∀ before fetch manifest, (s.manifests before fetch).outcome = .ok manifest →
    manifest.modules.length ≤ requirements.length

/-- Repositories with channels for which a version may be looked up. -/
def Agenda.places (a : Agenda) (requirements : List Requirement) : List (String × String) :=
  requirements.flatMap fun q =>
    [(a.uriOf q.name, ""), (a.uriOf q.name, (q.wish?.map Prod.snd).getD "")]

/-- All that manifests on a shelf list. -/
def Shelf.requirements (shelf : Shelf) : List Requirement :=
  shelf.items.flatMap fun item => item.manifest.modules

namespace Surroundings

variable {s : Surroundings} {requirements : List Requirement}

theorem Steady.declares_unique (hs : s.Steady requirements) {name other : String} {fetch : Fetch}
    (h : s.Declares name fetch) (hother : s.Declares other fetch) : name = other := by
  obtain ⟨before, manifest, hserved, rfl⟩ := h
  obtain ⟨before', manifest', hserved', rfl⟩ := hother
  rw [hs.manifests before before', hserved', Except.ok.injEq] at hserved
  rw [hserved]

theorem Steady.withClock (hs : s.Steady requirements) (now : Int) (later : Nat → Int) :
    ({ s with now, later } : Surroundings).Steady requirements :=
  ⟨hs.versions, hs.unordered, hs.manifests, hs.listed, hs.width⟩

/-- Asking again with a history that asks for nothing new gives the same answer. -/
theorem Steady.versions_append (hs : s.Steady requirements) {history : History} {d : Demand}
    {uri : String} {p : Pick} (asked asked' : List Query)
    (hwish : d.wish ∈ history.map Demand.wish)
    (h : s.versions asked (history.query uri) = .ok p) :
    s.versions asked' (History.query (history ++ [d]) uri) = .ok p := by
  rw [hs.versions asked asked'] at h
  exact hs.unordered asked' (history.query uri) _ p rfl (History.channel_append_of_wish hwish) rfl
    (History.mem_constraints_append_of_wish hwish) h

theorem steady_inMemory {registry : Registry} {failing : Option Failure} {shelf : Shelf} {now : Int}
    {later : Nat → Int} (hall : ∀ q ∈ shelf.requirements, q ∈ requirements)
    (hlength : shelf.requirements.length ≤ requirements.length) :
    (Surroundings.inMemory registry failing shelf now later).Steady requirements where
  versions := fun _ _ _ => rfl
  unordered := by
    intro asked q q' p hurl hchannel hallow hconstraints h
    cases failing with
    | some failure => cases h
    | none => exact Registry.pick_congr hurl hchannel hallow hconstraints h
  manifests := fun _ _ _ => rfl
  listed := by
    intro before fetch manifest hserved q hq
    obtain ⟨item, hitem, rfl⟩ := Shelf.exists_item_of_manifest hserved
    exact hall q (List.mem_flatMap.mpr ⟨item, hitem, hq⟩)
  width := by
    intro before fetch manifest hserved
    obtain ⟨item, hitem, rfl⟩ := Shelf.exists_item_of_manifest hserved
    refine Nat.le_trans (List.Sublist.length_le ?_) hlength
    exact List.sublist_flatten_of_mem (List.mem_map_of_mem hitem)

end Surroundings

namespace Run

variable {s : Surroundings} {r r' : Run} {requirements : List Requirement} {first : Agenda}

section Picked

variable {cache after : Cache} {asked queries : List Query} {uri : String} {before : Option Pick}
variable {history : History} {pick : Pick}

theorem Picked.remote (h : Picked s cache asked uri before history pick after queries)
    (himmutable : pick.mutable = false) : Location.isLocal uri = false := by
  cases h with
  | stays _ hmutable => simp [himmutable] at hmutable
  | here _ _ => cases himmutable
  | cached _ hremote _ _ => exact hremote
  | asked _ hremote _ _ _ _ => exact hremote

theorem Picked.get_self (h : Picked s cache asked uri before history pick after queries)
    (himmutable : pick.mutable = false) {time : Int} {found : Pick}
    (hget : (after.get time uri history.channel).outcome = .ok (some found)) : found = pick := by
  cases h with
  | stays _ hmutable => simp [himmutable] at hmutable
  | here _ _ => cases himmutable
  | cached _ _ hcached _ => exact Cache.get_unique hcached hget
  | asked _ _ _ _ _ hput =>
    rw [Cache.get_of_put hput] at hget
    split at hget
    · simpa using hget.symm
    · cases hget

/-- The cache changes only when the version source answers: it then keeps the answer. -/
theorem Picked.unchanged_or_asked (h : Picked s cache asked uri before history pick after queries) :
    after = cache ∨ s.versions asked (history.query uri) = .ok pick ∧
      cache.put s.now uri history.channel pick = .ok after := by
  cases h with
  | stays _ _ => exact .inl rfl
  | here _ _ => exact .inl rfl
  | cached _ _ _ _ => exact .inl rfl
  | asked _ _ _ _ hanswer hput => exact .inr ⟨hanswer, hput⟩

theorem Picked.ttl_eq (h : Picked s cache asked uri before history pick after queries) :
    after.ttl = cache.ttl := by
  rcases h.unchanged_or_asked with rfl | ⟨_, hput⟩
  · rfl
  · obtain ⟨_, rfl⟩ := Cache.put_ok hput
    rfl

theorem Picked.get_cases {places : List (String × String)} (hapart : Cache.KeysApart places)
    (h : Picked s cache asked uri before history pick after queries) {uri' channel' : String}
    (hplace : (uri, history.channel) ∈ places) (hplace' : (uri', channel') ∈ places) {later : Int}
    {found : Pick} (hget : (after.get later uri' channel').outcome = .ok (some found)) :
    (cache.get later uri' channel').outcome = .ok (some found) ∨
      (s.versions asked (history.query uri) = .ok pick ∧
        uri' = uri ∧ channel' = history.channel ∧ found = pick) := by
  rcases h.unchanged_or_asked with rfl | ⟨hanswer, hput⟩
  · exact .inl hget
  by_cases hkey : cacheKey uri' channel' = cacheKey uri history.channel
  · obtain ⟨rfl, rfl⟩ := hapart.eq_of_cacheKey hplace' hplace hkey
    rw [Cache.get_of_put hput] at hget
    split at hget
    · exact .inr ⟨hanswer, rfl, rfl, by simpa using hget.symm⟩
    · cases hget
  · rw [Cache.get_of_put_ne hput hkey] at hget
    exact .inl hget

end Picked

/-- The condition of a module that was settled on `pick` with `history`. -/
structure Settled (s : Surroundings) (requirements : List Requirement) (cache : Cache)
    (name uri : String) (history : History) (pick : Pick) : Prop where
  named : ∃ q ∈ requirements, q.name = name
  wished : ∀ d ∈ history, ∃ q ∈ requirements, q.name = name ∧ q.wish? = some d.wish
  declared : s.Declares name { uri, version := pick.tag }
  remote : pick.mutable = false → Location.isLocal uri = false
  kept : pick.mutable = false → ∀ time found,
    (cache.get time uri history.channel).outcome = .ok (some found) →
      found = pick ∨ ¬s.Declares name { uri, version := found.tag }

/-- The invariant of runs in steady surroundings. -/
structure Tame (s : Surroundings) (requirements : List Requirement) (first : Agenda) (r : Run) :
    Prop where
  replacements : r.agenda.replacements = first.replacements
  tasks : ∀ task ∈ r.agenda.tasks, task.requirement ∈ requirements
  settled : ∀ name e, r.agenda.find? name = some e → e.given = false →
    ∃ history pick, e = settledEntry history pick (pick.pinned name (first.uriOf name)) ∧
      Settled s requirements r.cache name (first.uriOf name) history pick

theorem Tame.first_mem (hr : r.Tame s requirements first) {task : Task} {rest : List Task}
    (h : r.agenda.tasks = task :: rest) : task.requirement ∈ requirements :=
  hr.tasks task (by rw [h]; exact List.mem_cons_self)

theorem mem_places {name : String} {history : History}
    (hnamed : ∃ q ∈ requirements, q.name = name)
    (hwished : ∀ d ∈ history, ∃ q ∈ requirements, q.name = name ∧ q.wish? = some d.wish) :
    (first.uriOf name, history.channel) ∈ first.places requirements := by
  rcases history.channel_eq_or_mem with hchannel | ⟨d, hd, hchannel⟩
  · obtain ⟨q, hq, rfl⟩ := hnamed
    exact List.mem_flatMap.mpr ⟨q, hq, by simp [hchannel]⟩
  · obtain ⟨q, hq, rfl, hwish⟩ := hwished d hd
    refine List.mem_flatMap.mpr ⟨q, hq, ?_⟩
    simp [hwish, Demand.wish, hchannel]

theorem Settled.mem_places {cache : Cache} {name : String} {history : History} {pick : Pick}
    (h : Settled s requirements cache name (first.uriOf name) history pick) :
    (first.uriOf name, history.channel) ∈ first.places requirements :=
  Run.mem_places h.named h.wished

theorem Settled.of_picked {cache after : Cache} {asked queries : List Query} {before : Option Pick}
    {name other : String} {history history' : History} {pick pick' : Pick}
    (hs : s.Steady requirements) (hapart : Cache.KeysApart (first.places requirements))
    (h : Settled s requirements cache other (first.uriOf other) history pick)
    (hpicked : Picked s cache asked (first.uriOf name) before history' pick' after queries)
    (hplace : (first.uriOf name, history'.channel) ∈ first.places requirements)
    (hdeclared : s.Declares name { uri := first.uriOf name, version := pick'.tag })
    (hne : other ≠ name) :
    Settled s requirements after other (first.uriOf other) history pick where
  named := h.named
  wished := h.wished
  declared := h.declared
  remote := h.remote
  kept := by
    intro himmutable time found hget
    rcases hpicked.get_cases hapart hplace h.mem_places hget with hget | ⟨_, huri, _, rfl⟩
    · exact h.kept himmutable time found hget
    · right
      intro hother
      rw [huri] at hother
      exact hne (hs.declares_unique hother hdeclared)

section Step

variable {task : Task} {rest : List Task} {d : Demand} {m : PinnedModule} {before : Entry}
variable {pick : Pick} {fetched : Option ModuleManifest}

/-- What an entry was before: nothing, or settled. -/
theorem Taken.before_cases (hr : r.Tame s requirements first)
    (h : Taken r task rest d before) :
    (r.agenda.find? task.requirement.name = none ∧ before = {}) ∨
      ∃ history old, r.agenda.find? task.requirement.name = some before ∧
        before = settledEntry history old
          (old.pinned task.requirement.name (first.uriOf task.requirement.name)) ∧
        Settled s requirements r.cache task.requirement.name
          (first.uriOf task.requirement.name) history old := by
  rcases h.before_eq with hnew | hfind
  · exact .inl hnew
  · obtain ⟨history, old, hshape, hsettled⟩ := hr.settled _ _ hfind h.notGiven
    exact .inr ⟨history, old, hfind, hshape, hsettled⟩

theorem Taken.named (hr : r.Tame s requirements first) (h : Taken r task rest d before) :
    ∃ q ∈ requirements, q.name = task.requirement.name :=
  ⟨task.requirement, hr.first_mem h.first, rfl⟩

theorem Taken.wished (hr : r.Tame s requirements first) (h : Taken r task rest d before) :
    ∀ asked ∈ before.history ++ [d],
      ∃ q ∈ requirements, q.name = task.requirement.name ∧ q.wish? = some asked.wish := by
  intro asked hasked
  rcases List.mem_append.mp hasked with hasked | hasked
  · rcases h.before_cases hr with ⟨_, hbefore⟩ | ⟨history, old, _, hbefore, hsettled⟩
    · simp [hbefore] at hasked
    · rw [hbefore, settledEntry] at hasked
      exact hsettled.wished asked hasked
  · rw [List.mem_singleton.mp hasked]
    exact ⟨task.requirement, hr.first_mem h.first, rfl, wish?_of_demand h.demand⟩

theorem Taken.mem_places (hr : r.Tame s requirements first) (h : Taken r task rest d before) :
    (first.uriOf task.requirement.name, History.channel (before.history ++ [d])) ∈
      first.places requirements :=
  Run.mem_places (h.named hr) (h.wished hr)

theorem PickedStep.before_cases (hr : r.Tame s requirements first)
    (h : PickedStep s r r' task rest d m before pick fetched) :
    (r.agenda.find? m.name = none ∧ before = {}) ∨
      ∃ history old, r.agenda.find? m.name = some before ∧
        before = settledEntry history old (old.pinned m.name (first.uriOf m.name)) ∧
        Settled s requirements r.cache m.name (first.uriOf m.name) history old := by
  rw [h.own]
  exact h.toTaken.before_cases hr

theorem PickedStep.shape_first (hr : r.Tame s requirements first)
    (h : PickedStep s r r' task rest d m before pick fetched) :
    m = pick.pinned m.name (first.uriOf m.name) :=
  h.shape_of hr.replacements.symm

theorem PickedStep.uri_eq (hr : r.Tame s requirements first)
    (h : PickedStep s r r' task rest d m before pick fetched) : m.uri = first.uriOf m.name :=
  congrArg PinnedModule.uri (h.shape_first hr)

theorem PickedStep.declared (hr : r.Tame s requirements first)
    (h : PickedStep s r r' task rest d m before pick fetched) :
    s.Declares m.name { uri := first.uriOf m.name, version := pick.tag } := by
  have hshape := h.shape_first hr
  cases hfetched : fetched with
  | some manifest =>
    obtain ⟨_, hserved, hname⟩ := h.fresh manifest hfetched
    have hversion : m.version = pick.tag := congrArg PinnedModule.version hshape
    rw [PinnedModule.fetch, h.uri_eq hr, hversion] at hserved
    exact ⟨_, manifest, hserved, hname⟩
  | none =>
    have hknown := h.known hfetched
    rcases h.before_cases hr with ⟨hnone, _⟩ | ⟨history, old, hfind, hbefore, hsettled⟩
    · simp [hnone] at hknown
    · rw [hfind, Option.bind_some, hbefore, settledEntry, Option.some.injEq] at hknown
      have htag : old.tag = pick.tag := congrArg PinnedModule.version (hknown.trans hshape)
      exact htag ▸ hsettled.declared

theorem PickedStep.settled (hr : r.Tame s requirements first)
    (h : PickedStep s r r' task rest d m before pick fetched) :
    Settled s requirements r'.cache m.name (first.uriOf m.name) (before.history ++ [d]) pick where
  named := h.own ▸ h.toTaken.named hr
  wished := h.own ▸ h.toTaken.wished hr
  declared := h.declared hr
  remote := by
    intro himmutable
    rw [← h.uri_eq hr]
    exact h.picked.remote himmutable
  kept := by
    intro himmutable time found hget
    rw [← h.uri_eq hr] at hget
    exact .inl (h.picked.get_self himmutable hget)

theorem PickedStep.tame (hs : s.Steady requirements)
    (hapart : Cache.KeysApart (first.places requirements)) (hr : r.Tame s requirements first)
    (h : PickedStep s r r' task rest d m before pick fetched) : r'.Tame s requirements first where
  replacements := h.replacements.trans hr.replacements
  tasks := h.requirements h.first hs.listed hr.tasks
  settled := by
    intro name e hfind hgiven
    rw [h.find] at hfind
    have hsettled := h.settled hr
    split at hfind
    · rename_i hname
      cases hfind
      rw [hname]
      exact ⟨_, pick, by rw [← h.shape_first hr], hsettled⟩
    · rename_i hne
      obtain ⟨history, old, hshape, hother⟩ := hr.settled name e hfind hgiven
      have hpicked := h.picked
      rw [h.uri_eq hr] at hpicked
      exact ⟨history, old, hshape,
        hother.of_picked hs hapart hpicked hsettled.mem_places hsettled.declared hne⟩

end Step

theorem tame_transition (hs : s.Steady requirements)
    (hapart : Cache.KeysApart (first.places requirements)) (hr : r.Tame s requirements first)
    (h : Transition s r r') (hfailure : r'.failure = none) : r'.Tame s requirements first := by
  cases h with
  | lost htasks _ =>
    exact
      { replacements := hr.replacements
        tasks := fun task ht => hr.tasks task (by rw [htasks]; exact List.mem_cons_of_mem _ ht)
        settled := hr.settled }
  | failed hfailed _ => simp [hfailure] at hfailed
  | given h =>
    exact
      { replacements := h.replacements.trans hr.replacements
        tasks := h.requirements h.first hs.listed hr.tasks
        settled := by
          intro name e hfind hgiven
          rw [h.find] at hfind
          split at hfind
          · cases hfind
            simp [h.given] at hgiven
          · rw [h.cache]
            exact hr.settled name e hfind hgiven }
  | picked h => exact h.tame hs hapart hr

theorem Tame.of_manifests {t : Surroundings} (hr : r.Tame s requirements first)
    (hsame : t.manifests = s.manifests) : r.Tame t requirements first where
  replacements := hr.replacements
  tasks := hr.tasks
  settled := by
    have hdeclares : t.Declares = s.Declares := by
      funext name fetch
      rw [Surroundings.Declares, Surroundings.Declares, hsame]
    intro name e hfind hgiven
    obtain ⟨history, pick, hshape, hsettled⟩ := hr.settled name e hfind hgiven
    exact ⟨history, pick, hshape,
      { hsettled with
        declared := hdeclares ▸ hsettled.declared
        kept := hdeclares ▸ hsettled.kept }⟩

theorem tame_transition_withClock (hs : s.Steady requirements) (now : Int) (later : Nat → Int)
    (hapart : Cache.KeysApart (first.places requirements)) (hr : r.Tame s requirements first)
    (h : Transition { s with now, later } r r') (hfailure : r'.failure = none) :
    r'.Tame s requirements first :=
  (tame_transition (hs.withClock now later) hapart (hr.of_manifests rfl) h hfailure).of_manifests rfl

theorem tame_start {tasks : List Task} (replacements : List (String × String))
    (given : List PinnedModule) (base : Path) (cache : Cache) (workers : Nat)
    (htasks : ∀ task ∈ tasks, task.requirement ∈ requirements) :
    Tame s requirements (.start tasks replacements given base)
      { agenda := .start tasks replacements given base, cache, workers } where
  replacements := rfl
  tasks := htasks
  settled := by
    intro name e hfind hgiven
    obtain ⟨m, _, _, rfl⟩ := Agenda.find?_start name tasks replacements given base e hfind
    cases hgiven

end Run

end ModulePins
