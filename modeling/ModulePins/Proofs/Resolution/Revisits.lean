import ModulePins.Proofs.Resolution.Growth
import ModulePins.Proofs.Resolution.Highest
import ModulePins.Proofs.Resolution.Visits

/-!
# Second visits

A run on a registry and an empty cache visits a version of a module once, with one exception. A
version that was visited before its name had a channel may come back once more when the name has got
one: only the module that was expanded last is remembered, and the channel can lead to another one
and a constraint back again.

While the channel stays, so does the pick, until a constraint comes up that it does not satisfy; and
constraints stay on record.
-/

namespace ModulePins

namespace Visit

/-- The module of a visit was given up because of a constraint, in a channel without a branch. -/
structure Discarded (registry : Registry) (uri : String) (v : Visit) (history : History) :
    Prop where
  remote : Location.isLocal uri = false
  branchless : registry.branch? uri v.channel = none
  unfit : ∃ text ∈ history.constraints, ¬Satisfies v.module.version text

/-- What became of a visit by the time that its module has the entry `e`: the name got a channel,
the module is still the one expanded last, or it was given up. -/
inductive Standing (registry : Registry) (uri : String) (v : Visit) (e : Entry) : Prop
  | passed (hfree : v.channel = "") (hpinned : e.history.channel ≠ "")
  | current (hchannel : v.channel = e.history.channel) (hexpanded : e.expanded = some v.module)
  | discarded (hchannel : v.channel = e.history.channel) (h : v.Discarded registry uri e.history)

/-- A later visit for the same version is the first with a channel. -/
def Precedes (v w : Visit) : Prop :=
  ∀ name version, v.IsFor name version → w.IsFor name version →
    v.channel = "" ∧ Demand.isOffStable w.channel = true

/-- If of any two visits the first came before the name got a channel and the second afterwards,
there are at most two. -/
theorem at_most_two {visits : List Visit}
    (h : visits.Pairwise fun v w => v.channel = "" ∧ Demand.isOffStable w.channel = true) :
    visits.length ≤ 1 ∨ ∃ first second, visits = [first, second] ∧ first.channel = "" ∧
      Demand.isOffStable second.channel = true := by
  match visits, h with
  | [], _ => exact .inl (Nat.zero_le 1)
  | [_], _ => exact .inl (Nat.le_refl 1)
  | [first, second], h =>
    obtain ⟨hfree, hpinned⟩ := List.rel_of_pairwise_cons h List.mem_cons_self
    exact .inr ⟨first, second, rfl, hfree, hpinned⟩
  | _ :: second :: _ :: _, h =>
    -- The second would come both after and before the name got a channel.
    obtain ⟨_, hpinned⟩ := List.rel_of_pairwise_cons h List.mem_cons_self
    obtain ⟨hfree, _⟩ := List.rel_of_pairwise_cons h.of_cons List.mem_cons_self
    simp [hfree, Demand.isOffStable] at hpinned

theorem at_most_two_for {visits : List Visit} (h : visits.Pairwise Precedes)
    (name version : String) :
    (visits.filter fun v => v.IsFor name version).length ≤ 1 ∨
      ∃ first second, (visits.filter fun v => v.IsFor name version) = [first, second] ∧
        first.channel = "" ∧ Demand.isOffStable second.channel = true := by
  apply at_most_two
  refine List.Pairwise.imp_of_mem ?_ (h.filter _)
  intro v w hv hw hprecedes
  exact hprecedes name version (by simpa using List.of_mem_filter hv)
    (by simpa using List.of_mem_filter hw)

theorem Discarded.append {registry : Registry} {uri : String} {v : Visit} {history : History}
    (h : v.Discarded registry uri history) (more : History) :
    v.Discarded registry uri (history ++ more) where
  remote := h.remote
  branchless := h.branchless
  unfit := by
    obtain ⟨text, htext, hunfit⟩ := h.unfit
    rw [History.mem_constraints] at htext
    obtain ⟨hne, d, hd, hconstraint⟩ := htext
    exact ⟨text, (History.mem_constraints _ _).mpr ⟨hne, d, List.mem_append_left _ hd, hconstraint⟩,
      hunfit⟩

/-- One more demand leaves the channel as it is, or a visit without a channel is passed by. -/
theorem Standing.append_cases {registry : Registry} {uri : String} {v : Visit} {e : Entry}
    (h : v.Standing registry uri e) (d : Demand) :
    (v.channel = "" ∧ History.channel (e.history ++ [d]) ≠ "") ∨
      History.channel (e.history ++ [d]) = e.history.channel ∧ v.channel = e.history.channel ∧
        (e.expanded = some v.module ∨ v.Discarded registry uri e.history) := by
  cases h with
  | passed hfree hpinned =>
    rcases History.channel_append e.history [d] with hsame | ⟨_, hpinned⟩
    · exact .inl ⟨hfree, hsame.symm ▸ hpinned⟩
    · exact .inl ⟨hfree, hpinned⟩
  | current hchannel hexpanded =>
    rcases History.channel_append e.history [d] with hsame | ⟨hfree, hpinned⟩
    · exact .inr ⟨hsame, hchannel, .inl hexpanded⟩
    · exact .inl ⟨hchannel.trans hfree, hpinned⟩
  | discarded hchannel hdiscarded =>
    rcases History.channel_append e.history [d] with hsame | ⟨hfree, hpinned⟩
    · exact .inr ⟨hsame, hchannel, .inr hdiscarded⟩
    · exact .inl ⟨hchannel.trans hfree, hpinned⟩

end Visit

namespace Run

variable {s t : Surroundings} {r r' start : Run} {registry : Registry} {failing : Option Failure}

/-- A pick that does not move and is found in the cache, for a channel that no branch serves. -/
structure Kept (s : Surroundings) (registry : Registry) (cache : Cache) (uri channel : String)
    (pick : Pick) : Prop where
  remote : Location.isLocal uri = false
  branchless : registry.branch? uri channel = none
  found : ∀ time, s.Shows time → (cache.get time uri channel).outcome = .ok (some pick)

/-- What is found in a place of the cache is found there at all times, and moves exactly if a branch
serves the channel. -/
structure Matches (s : Surroundings) (registry : Registry) (cache : Cache) (uri channel : String) :
    Prop where
  mutable_eq : ∀ time found, s.Shows time →
    (cache.get time uri channel).outcome = .ok (some found) →
      found.mutable = (registry.branch? uri channel).isSome
  stays : ∀ time found, s.Shows time → (cache.get time uri channel).outcome = .ok (some found) →
    ∀ other, s.Shows other → (cache.get other uri channel).outcome = .ok (some found)

/-- An entry that was settled on `pick`. -/
structure SettledOn (s : Surroundings) (registry : Registry) (cache : Cache) (name uri : String)
    (e : Entry) (pick : Pick) : Prop where
  picked : e.pick = some pick
  expanded : e.expanded = some (pick.pinned name uri)
  kept : pick.mutable = false → Kept s registry cache uri e.history.channel pick

section Picked

variable {cache after : Cache} {asked queries : List Query} {name uri : String}
variable {before : Option Pick} {history : History} {pick old : Pick} {e : Entry} {v : Visit}

theorem Picked.mutable_eq (hclock : t.Follows s) (hsource : s.versions = registry.source failing)
    (hmatches : Matches s registry cache uri history.channel)
    (hremote : Location.isLocal uri = false) (hnew : before = some pick → pick.mutable = false)
    (h : Picked t cache asked uri before history pick after queries) :
    pick.mutable = (registry.branch? uri history.channel).isSome := by
  cases h with
  | stays hbefore hmutable => simp [hnew hbefore] at hmutable
  | here _ hlocal => simp [hremote] at hlocal
  | cached _ _ hget _ => exact hmatches.mutable_eq _ pick hclock.now hget
  | asked _ _ _ _ hanswer _ =>
    rw [hclock.versions, hsource] at hanswer
    exact Registry.mutable_of_pick rfl (Registry.pick_of_source hanswer)

theorem Picked.kept (hclock : t.Follows s) (hsource : s.versions = registry.source failing)
    (httl : s.Within cache.ttl)
    (hmatches : Matches s registry cache uri history.channel)
    (h : Picked t cache asked uri before history pick after queries)
    (himmutable : pick.mutable = false) : Kept s registry after uri history.channel pick := by
  have hremote := h.remote himmutable
  have hbranch := h.mutable_eq hclock hsource hmatches hremote fun _ => himmutable
  rw [himmutable, eq_comm, Option.isSome_eq_false_iff, Option.isNone_iff_eq_none] at hbranch
  refine ⟨hremote, hbranch, ?_⟩
  cases h with
  | stays _ hmutable => simp [himmutable] at hmutable
  | here _ _ => cases himmutable
  | cached _ _ hget _ => exact hmatches.stays _ pick hclock.now hget
  | asked _ _ _ _ hanswer hput =>
    rw [hclock.versions, hsource] at hanswer
    have htag := Registry.tag_ne_empty himmutable (Registry.pick_of_source hanswer)
    intro time htime
    rw [Cache.get_of_put hput, if_pos ⟨httl time t.now htime hclock.now, htag⟩]

theorem SettledOn.of_get (he : SettledOn s registry cache name uri e old)
    (hsame : ∀ time, after.get time uri e.history.channel = cache.get time uri e.history.channel) :
    SettledOn s registry after name uri e old where
  picked := he.picked
  expanded := he.expanded
  kept := by
    intro himmutable
    obtain ⟨hremote, hbranchless, hfound⟩ := he.kept himmutable
    exact ⟨hremote, hbranchless, fun time htime => by rw [hsame, hfound time htime]⟩

/-- In the same channel an entry stays with its pick until a constraint comes up against it. -/
theorem SettledOn.same_or_unfit (hclock : t.Follows s)
    (he : SettledOn s registry cache name uri e old)
    (h : Picked t cache asked uri e.pick history pick after queries)
    (hchannel : history.channel = e.history.channel) :
    pick = old ∨ Kept s registry cache uri e.history.channel old ∧
      ∃ text ∈ history.constraints, ¬Satisfies old.tag text := by
  cases h with
  | stays hbefore _ =>
    rw [he.picked, Option.some.injEq] at hbefore
    exact .inl hbefore.symm
  | here hbefore hlocal =>
    have hkept := he.kept (hbefore old he.picked)
    simp [hkept.remote] at hlocal
  | cached hbefore _ hget _ =>
    have hkept := he.kept (hbefore old he.picked)
    rw [hchannel, hkept.found _ hclock.now] at hget
    exact .inl (by simpa using hget.symm)
  | asked hbefore _ hget hunusable _ _ =>
    have himmutable := hbefore old he.picked
    have hkept := he.kept himmutable
    rw [hchannel, hkept.found _ hclock.now, Except.ok.injEq] at hget
    have hunusable := hunusable old hget.symm
    have hunfit : ¬∀ text ∈ history.constraints, Satisfies old.tag text := by
      intro hall
      rw [isUsable_iff.mpr fun _ => hall] at hunusable
      cases hunusable
    push Not at hunfit
    exact .inr ⟨hkept, hunfit⟩

/-- After one more pick a visit is passed by, or else is that of the pick, which stayed, or is given
up. -/
theorem SettledOn.remains_or_discarded (hclock : t.Follows s)
    (he : SettledOn s registry cache name uri e old) {d : Demand}
    (h : Picked t cache asked uri e.pick (e.history ++ [d]) pick after queries)
    (hv : v.Standing registry uri e) :
    (v.channel = "" ∧ History.channel (e.history ++ [d]) ≠ "") ∨
      v.channel = History.channel (e.history ++ [d]) ∧
        ((e.expanded = some v.module ∧ v.module = pick.pinned name uri) ∨
          v.Discarded registry uri (e.history ++ [d])) := by
  rcases hv.append_cases d with hpassed | ⟨hsame, hchannel, hexpanded | hdiscarded⟩
  · exact .inl hpassed
  · have hmodule : v.module = old.pinned name uri := by
      rw [he.expanded, Option.some.injEq] at hexpanded
      exact hexpanded.symm
    refine .inr ⟨hchannel.trans hsame.symm, ?_⟩
    rcases he.same_or_unfit hclock h hsame with rfl | ⟨hkept, hunfit⟩
    · exact .inl ⟨hexpanded, hmodule⟩
    · refine .inr ⟨hkept.remote, hchannel ▸ hkept.branchless, ?_⟩
      rw [hmodule]
      exact hunfit
  · exact .inr ⟨hchannel.trans hsame.symm, .inr (hdiscarded.append [d])⟩

theorem SettledOn.standing (hclock : t.Follows s) (he : SettledOn s registry cache name uri e old)
    {d : Demand}
    (h : Picked t cache asked uri e.pick (e.history ++ [d]) pick after queries)
    (hv : v.Standing registry uri e) :
    v.Standing registry uri (settledEntry (e.history ++ [d]) pick (pick.pinned name uri)) := by
  rcases he.remains_or_discarded hclock h hv with ⟨hfree, hpinned⟩ |
    ⟨hchannel, ⟨_, hmodule⟩ | hdiscarded⟩
  · exact .passed hfree hpinned
  · exact .current hchannel (congrArg some hmodule.symm)
  · exact .discarded hchannel hdiscarded

/-- A pick that leads to a visit is not for a version that was visited in the same channel. -/
theorem SettledOn.fresh (hclock : t.Follows s) (hsource : s.versions = registry.source failing)
    (he : SettledOn s registry cache name uri e old) {d : Demand}
    (hmatches : Matches s registry cache uri (History.channel (e.history ++ [d])))
    (h : Picked t cache asked uri e.pick (e.history ++ [d]) pick after queries)
    (hnew : e.expanded ≠ some (pick.pinned name uri)) (hv : v.Standing registry uri e)
    (hversion : v.module.version = pick.tag) :
    v.channel = "" ∧ Demand.isOffStable (History.channel (e.history ++ [d])) = true := by
  rcases he.remains_or_discarded hclock h hv with ⟨hfree, hpinned⟩ |
    ⟨hchannel, ⟨hexpanded, hmodule⟩ | ⟨hremote, hbranchless, text, htext, hunfit⟩⟩
  · exact ⟨hfree, History.isOffStable_channel hpinned⟩
  · exact absurd (hmodule ▸ hexpanded) hnew
  · -- The pick satisfies all constraints, and the version visited before does not.
    have hmoved : e.pick ≠ some pick := by
      intro hpick
      rw [he.picked, Option.some.injEq] at hpick
      exact hnew (hpick ▸ he.expanded)
    have himmutable := h.mutable_eq hclock hsource hmatches hremote fun hpick => absurd hpick hmoved
    rw [← hchannel, hbranchless, Option.isSome_none] at himmutable
    have hhonours : t.versions.Honours := by
      rw [hclock.versions, hsource]
      exact Registry.honours registry failing
    exact absurd (hversion ▸ h.satisfies hhonours himmutable text htext) hunfit

theorem Picked.get_ne {places : List (String × String)} (hkeys : Cache.KeysApart places)
    (h : Picked t cache asked uri before history pick after queries) {other channel : String}
    (hplace : (uri, history.channel) ∈ places) (hplace' : (other, channel) ∈ places)
    (hne : other ≠ uri) (later : Int) :
    after.get later other channel = cache.get later other channel := by
  rcases h.unchanged_or_asked with rfl | ⟨_, hput⟩
  · rfl
  · refine Cache.get_of_put_ne hput ?_ later
    intro hkey
    exact hne (hkeys.eq_of_cacheKey hplace' hplace hkey).1

theorem Picked.matches {places : List (String × String)} {place : String × String}
    (hclock : t.Follows s) (hsource : s.versions = registry.source failing)
    (httl : s.Within cache.ttl) (hkeys : Cache.KeysApart places)
    (h : Picked t cache asked uri before history pick after queries)
    (hplace : (uri, history.channel) ∈ places) (hplace' : place ∈ places)
    (hcache : Matches s registry cache place.1 place.2) :
    Matches s registry after place.1 place.2 := by
  rcases h.unchanged_or_asked with rfl | ⟨hanswer, hput⟩
  · exact hcache
  by_cases hkey : cacheKey place.1 place.2 = cacheKey uri history.channel
  · obtain ⟨huri, hchannel⟩ := hkeys.eq_of_cacheKey hplace' hplace hkey
    rw [hclock.versions, hsource] at hanswer
    have hmutable := Registry.mutable_of_pick rfl (Registry.pick_of_source hanswer)
    -- Whatever is found is the answer, which stays fresh.
    have hfound : ∀ time found, s.Shows time →
        (after.get time place.1 place.2).outcome = .ok (some found) →
          found = pick ∧ pick.tag ≠ "" := by
      intro time found htime hget
      rw [huri, hchannel, Cache.get_of_put hput] at hget
      split at hget
      · rename_i hfresh
        exact ⟨by simpa using hget.symm, hfresh.2⟩
      · cases hget
    constructor
    · intro time found htime hget
      obtain ⟨rfl, _⟩ := hfound time found htime hget
      rw [huri, hchannel]
      exact hmutable
    · intro time found htime hget other hother
      obtain ⟨rfl, htag⟩ := hfound time found htime hget
      rw [huri, hchannel, Cache.get_of_put hput,
        if_pos ⟨httl other t.now hother hclock.now, htag⟩]
  · have hsame : ∀ time, after.get time place.1 place.2 = cache.get time place.1 place.2 :=
      fun time => Cache.get_of_put_ne hput hkey time
    constructor
    · intro time found htime hget
      exact hcache.mutable_eq time found htime (by rw [← hsame, hget])
    · intro time found htime hget other hother
      rw [hsame]
      exact hcache.stays time found htime (by rw [← hsame, hget]) other hother

end Picked

theorem Turn.grows (h : Turn s r r') : r.agenda.Grows r'.agenda := by
  refine ⟨h.replacements, ?_⟩
  intro name e hfind
  rcases h.find?_cases name with hsame | ⟨old, m, hold, _, _, hfind'⟩ | ⟨task, _, d, before, htaken,
    rfl, hcases⟩
  · exact ⟨e, hsame.trans hfind, rfl, List.prefix_rfl⟩
  · rw [hfind, Option.some.injEq] at hold
    subst hold
    exact ⟨_, hfind', rfl, List.prefix_rfl⟩
  · have hbefore : before = e := by rw [htaken.was, hfind, Option.getD_some]
    subst hbefore
    rcases hcases with ⟨_, hfind'⟩ | ⟨_, _, hfind'⟩
    · exact ⟨_, hfind', rfl, List.prefix_append _ _⟩
    · exact ⟨_, hfind', htaken.notGiven.symm, List.prefix_append _ _⟩

/-- The invariant of runs on a registry: what is known of all entries, of the cache, and of the
visits made so far. The agenda `last` tells the places of the cache. -/
structure Tracked (s : Surroundings) (registry : Registry) (last : Agenda) (visits : List Visit)
    (r : Run) : Prop where
  ttl : s.Within r.cache.ttl
  given : ∀ name e, r.agenda.find? name = some e → e.given = true →
    e.history = [] ∧ ∀ m, e.expanded = some m → e.chosen = some m
  settled : ∀ name e, r.agenda.find? name = some e → e.given = false →
    ∃ pick, SettledOn s registry r.cache name (last.uriOf name) e pick
  cached : ∀ place ∈ last.kept, Matches s registry r.cache place.1 place.2
  standing : ∀ v ∈ visits, ∃ e, r.agenda.find? v.module.name = some e ∧
    v.Standing registry (last.uriOf v.module.name) e

section Tracked

variable {last : Agenda} {visits : List Visit} {v w : Visit}

theorem tracked_start {tasks : List Task} {replacements : List (String × String)}
    {given : List PinnedModule} {base : Path} {cache : Cache} {workers : Nat}
    (hempty : cache.slots = []) (httl : s.Within cache.ttl) :
    Tracked s registry last [] { agenda := .start tasks replacements given base, cache, workers } where
  ttl := httl
  given := by
    intro name e hfind _
    obtain ⟨_, _, _, rfl⟩ := Agenda.find?_start name tasks replacements given base e hfind
    exact ⟨rfl, fun _ hexpanded => by cases hexpanded⟩
  settled := by
    intro name e hfind hgiven
    obtain ⟨_, _, _, rfl⟩ := Agenda.find?_start name tasks replacements given base e hfind
    cases hgiven
  cached := by
    intro place _
    have hnothing : ∀ time found, (cache.get time place.1 place.2).outcome ≠ .ok (some found) := by
      simp [Cache.get, Cache.slot?, hempty, Report.ok]
    exact ⟨fun time found _ hget => absurd hget (hnothing time found),
      fun time found _ hget => absurd hget (hnothing time found)⟩
  standing := by simp

/-- An earlier visit for a given module was for the module as it was given. -/
theorem Tracked.expanded_of_given (hr : Tracked s registry last visits r) (hv : v ∈ visits)
    {e : Entry} (hfind : r.agenda.find? v.module.name = some e) (hgiven : e.given = true) :
    e.expanded = some v.module ∧ v.channel = e.history.channel := by
  obtain ⟨hhistory, _⟩ := hr.given _ e hfind hgiven
  obtain ⟨e', hfind', hstanding⟩ := hr.standing v hv
  obtain rfl := Option.some.inj (hfind.symm.trans hfind')
  cases hstanding with
  | passed _ hpinned => simp [hhistory, History.channel, History.pinning?] at hpinned
  | current hchannel hexpanded => exact ⟨hexpanded, hchannel⟩
  | discarded _ hdiscarded =>
    obtain ⟨text, htext, _⟩ := hdiscarded.unfit
    simp [hhistory, History.constraints] at htext

/-- A visit that is due is for a version that was not visited before, or was without a channel,
while there is one now. -/
theorem Tracked.fresh (hclock : t.Follows s) (hsource : s.versions = registry.source failing)
    (hr : Tracked s registry last visits r) (hsame : last.replacements = r.agenda.replacements)
    (hdue : Due t r v) (hplace : (last.uriOf v.module.name, v.channel) ∈ last.kept)
    (hw : w ∈ visits) : w.Precedes v := by
  rintro _ _ ⟨rfl, rfl⟩ ⟨hname, hversion⟩
  cases hdue with
  | given hfind hgiven hchosen hnew =>
    rw [hname] at hfind
    obtain ⟨hexpanded, _⟩ := hr.expanded_of_given hw hfind hgiven
    rw [(hr.given _ _ hfind hgiven).2 _ hexpanded, Option.some.injEq] at hchosen
    exact absurd (hchosen ▸ hexpanded) hnew
  | @picked task rest d before pick cache queries htaken hshape hpicked hnew hchannel =>
    have hown : v.module.name = task.requirement.name := congrArg PinnedModule.name hshape
    obtain ⟨e, hfind, hstanding⟩ := hr.standing w hw
    rw [← hname, hown] at hfind hstanding
    have hbefore : before = e := by rw [htaken.was, hfind, Option.getD_some]
    subst hbefore
    obtain ⟨old, hsettled⟩ := hr.settled _ _ hfind htaken.notGiven
    rw [hown, hchannel] at hplace
    have hmatches := hr.cached _ hplace
    rw [← Agenda.uriOf_congr hsame] at hpicked hshape
    rw [hshape] at hnew hversion
    rw [hchannel]
    exact hsettled.fresh hclock hsource hmatches hpicked hnew hstanding hversion.symm

theorem Tracked.visited (hr : Tracked s registry last visits r) {e : Entry}
    (hfind : r.agenda.find? v.module.name = some e) (hexpanded : e.expanded = some v.module)
    (hchannel : e.history.channel = v.channel) : Tracked s registry last (visits ++ [v]) r :=
  { hr with
    standing := by
      intro w hw
      rcases List.mem_append.mp hw with hw | hw
      · exact hr.standing w hw
      · rw [List.mem_singleton.mp hw]
        exact ⟨e, hfind, .current hchannel.symm hexpanded⟩ }

theorem GivenStep.tracked {task : Task} {rest : List Task} {d : Demand} {m : PinnedModule}
    {before : Entry} {fetched : Option ModuleManifest} (hr : Tracked s registry last visits r)
    (h : GivenStep t r r' task rest d m before fetched) : Tracked s registry last visits r' where
  ttl := h.cache ▸ hr.ttl
  given := by
    intro name e hfind hgiven
    rw [h.find] at hfind
    split at hfind
    · cases hfind
      refine ⟨(hr.given _ before h.was h.given).1, ?_⟩
      intro m' hm'
      cases hm'
      exact h.chosen
    · exact hr.given name e hfind hgiven
  settled := by
    intro name e hfind hgiven
    rw [h.find] at hfind
    rw [h.cache]
    split at hfind
    · cases hfind
      simp [h.given] at hgiven
    · exact hr.settled name e hfind hgiven
  cached := h.cache ▸ hr.cached
  standing := by
    intro v hv
    by_cases hname : v.module.name = m.name
    · have hwas := h.was
      rw [← hname] at hwas
      obtain ⟨hexpanded, hchannel⟩ := hr.expanded_of_given hv hwas h.given
      have hchosen := (hr.given _ before hwas h.given).2 _ hexpanded
      have hsame : m = v.module := Option.some.inj (h.chosen.symm.trans hchosen)
      refine ⟨_, (h.find _).trans (if_pos hname), .current hchannel ?_⟩
      rw [← hsame]
    · obtain ⟨e, hfind, hstanding⟩ := hr.standing v hv
      exact ⟨e, by rw [h.find, if_neg hname, hfind], hstanding⟩

variable (hsource : s.versions = registry.source failing) (hapart : last.Apart)
variable (hkeys : Cache.KeysApart last.kept)
include hsource hapart hkeys

theorem PickedStep.tracked {task : Task} {rest : List Task} {d : Demand} {m : PinnedModule}
    {before : Entry} {pick : Pick} {fetched : Option ModuleManifest}
    (hclock : t.Follows s) (hr : Tracked s registry last visits r)
    (h : PickedStep t r r' task rest d m before pick fetched) (hgrows : r'.agenda.Grows last) :
    Tracked s registry last visits r' := by
  have hpicked := h.picked
  have hplace := h.mem_kept hgrows
  rw [h.uri_last hgrows] at hpicked hplace
  have hmatches := hr.cached _ hplace
  have hshape := h.shape_last hgrows
  have hbefore : r.agenda.Grows last := ((Transition.picked h).grows h.failure).trans hgrows
  refine ⟨hpicked.ttl_eq ▸ hr.ttl, ?_, ?_, ?_, ?_⟩
  · intro name e hfind hgiven
    rw [h.find] at hfind
    split at hfind
    · cases hfind
      cases hgiven
    · exact hr.given name e hfind hgiven
  · intro name e hfind hgiven
    rw [h.find] at hfind
    split at hfind
    · rename_i hname
      cases hfind
      subst hname
      exact ⟨pick, rfl, congrArg some hshape, hpicked.kept hclock hsource hr.ttl hmatches⟩
    · rename_i hname
      obtain ⟨old, hold⟩ := hr.settled name e hfind hgiven
      -- Another module is fetched from another place, so its pick is not overwritten.
      have huri := h.uri_ne hgrows hapart hbefore hfind hgiven hname
      exact ⟨old, hold.of_get (hpicked.get_ne hkeys hplace (hbefore.mem_kept hfind) huri)⟩
  · intro place hplace'
    exact hpicked.matches hclock hsource hr.ttl hkeys hplace hplace' (hr.cached place hplace')
  · intro v hv
    obtain ⟨e, hfind, hstanding⟩ := hr.standing v hv
    by_cases hname : v.module.name = m.name
    · rw [hname] at hfind hstanding ⊢
      have hwas : before = e := by rw [h.was, ← h.own, hfind, Option.getD_some]
      subst hwas
      obtain ⟨old, hold⟩ := hr.settled _ before hfind h.notGiven
      have hnext := hold.standing hclock hpicked hstanding
      rw [← hshape] at hnext
      exact ⟨_, h.find_self, hnext⟩
    · exact ⟨e, by rw [h.find, if_neg hname, hfind], hstanding⟩

theorem tracked_transition (hclock : t.Follows s) (hr : Tracked s registry last visits r)
    (h : Transition t r r') (hfailure : r'.failure = none) (hgrows : r'.agenda.Grows last) :
    Tracked s registry last visits r' := by
  cases h with
  | lost _ _ => exact ⟨hr.ttl, hr.given, hr.settled, hr.cached, hr.standing⟩
  | failed hfailed _ => simp [hfailure] at hfailed
  | given h => exact h.tracked hr
  | picked h => exact h.tracked hsource hapart hkeys hclock hr hgrows

/-- In all courses later visits for a version come after the name got a channel. -/
theorem Course.tracked {tasks : List Task} (hsound : start.agenda.IsSound)
    (hstart : Tracked s registry last [] start) (h : Course s start tasks visits t r)
    (hgrows : r.agenda.Grows last) :
    (r.failure = none → Tracked s registry last visits r) ∧ visits.Pairwise Visit.Precedes := by
  induction h with
  | initial => exact ⟨fun _ => hstart, .nil⟩
  | @next tasks rest task visits t r hcourse hactive _ ih =>
    have hclock := hcourse.reachable.follows
    have hnone := (exists_task_of_isActive hactive).1
    have hturn := hcourse.turn hsound hactive
    obtain ⟨hbefore, hpairs⟩ := ih (hturn.grows.trans hgrows)
    have hbefore := hbefore hnone
    have hafter : (step t r).failure = none → Tracked s registry last visits (step t r) := by
      have hsound := isSound_reachable hsound hcourse.reachable hnone
      intro hfailure
      exact tracked_transition hsource hapart hkeys hclock hbefore (step_transition hsound hactive)
        hfailure hgrows
    cases hvisit : visit? r (step t r) with
    | none =>
      rw [Option.toList_none, List.append_nil]
      exact ⟨hafter, hpairs⟩
    | some v =>
      obtain ⟨hdue, e, hfind, hexpanded, hchannel⟩ := hturn.due hvisit
      have hplace := hchannel ▸ hgrows.mem_kept hfind
      have hsame := hgrows.replacements.trans hturn.replacements
      refine ⟨fun hfailure => (hafter hfailure).visited hfind hexpanded hchannel, ?_⟩
      rw [Option.toList_some, List.pairwise_append]
      refine ⟨hpairs, List.pairwise_singleton _ _, ?_⟩
      intro w hw v' hv'
      obtain rfl := List.mem_singleton.mp hv'
      exact hbefore.fresh hclock hsource hsame hdue hplace hw

end Tracked

/-- On a registry and an empty cache, a course of visits accounts for all fetches and for all
requests that were ever on the agenda. It holds one visit for a version of a module at most, or
exactly two: the first before there was a channel for the module, and the second afterwards. Modules
that are not given are fetched from places of their own, and their picks are kept apart and long
enough. -/
theorem visits_lawful {goal : Goal} {given : List PinnedModule} {cache : Cache} {base : Path}
    (hsource : s.versions = registry.source failing) (hempty : cache.slots = [])
    (httl : s.Within cache.ttl) (hstart : Run.start goal given 1 cache base = .ok start)
    (h : Reachable s start t r) (hapart : r.agenda.Apart)
    (hkeys : Cache.KeysApart r.agenda.kept) :
    ∃ tasks visits, Course s start tasks visits t r ∧
      r.fetches = visits.map (fun v => v.module.fetch) ∧
      tasks ++ r.agenda.tasks = goal.tasks ++ visits.flatMap Visit.queued ∧
      (∀ v ∈ visits, v.Served s) ∧
      ∀ name version, (visits.filter fun v => v.IsFor name version).length ≤ 1 ∨
        ∃ first second, (visits.filter fun v => v.IsFor name version) = [first, second] ∧
          first.channel = "" ∧ Demand.isOffStable second.channel = true := by
  obtain ⟨_, rfl⟩ := start_ok hstart
  have hsound := isSound_start goal.tasks goal.replacements (goal.injected given) base
  obtain ⟨tasks, visits, hcourse⟩ := h.exists_course
  obtain ⟨hfetches, htasks, hserved⟩ := hcourse.accounts hsound
  obtain ⟨_, hpairs⟩ := hcourse.tracked hsource hapart hkeys hsound (tracked_start hempty httl)
    (Agenda.Grows.refl _)
  exact ⟨tasks, visits, hcourse, hfetches, htasks, hserved, Visit.at_most_two_for hpairs⟩

/-- A project that asks for `a`, then for a channel of it, and then for the version that was picked
before. -/
def driftGoal : Goal :=
  .project
    { name := "svc"
      modules := [{ name := "a" }, { name := "a", channel := "rc" },
        { name := "a", version := "1.0.0" }] }

def driftRegistry : Registry where
  tags := [("https://a", ["1.0.0", "1.1.0-rc.1"]), ("https://b", ["1.0.0"])]

def driftShelf : Shelf where
  items := [
    { uri := "https://a", manifest := { name := "a", modules := [{ name := "b" }] } },
    { uri := "https://b", manifest := { name := "b" } }]

/-- Each step takes a second, for a minute. -/
def driftSurroundings : Surroundings :=
  .inMemory driftRegistry none driftShelf 0 fun n => min (n + 1) 60

def driftStart : Run where
  agenda := .start driftGoal.tasks [] []
  cache := { root := "/cache", ttl := 60 }

theorem drift_within : driftSurroundings.Within 60 := by
  have hshows : ∀ time, driftSurroundings.Shows time → 0 ≤ time ∧ time ≤ 60 := by
    rintro time (rfl | ⟨n, rfl⟩)
    · exact ⟨Int.le_refl 0, by decide⟩
    · change 0 ≤ min ((n : Int) + 1) 60 ∧ min ((n : Int) + 1) 60 ≤ 60
      omega
  intro time other htime hother
  have hle := (hshows time htime).2
  have hpos := (hshows other hother).1
  omega

theorem drift_starts : Run.start driftGoal [] 1 { root := "/cache", ttl := 60 } = .ok driftStart :=
  rfl

/-- The run ends well after four fetches, two of them for `a` at one version. -/
theorem visits_lawful_drift :
    ∃ r tasks visits, finish? driftSurroundings 10 driftStart = some r ∧ r.failure = none ∧
      (∃ t, Course driftSurroundings driftStart tasks visits t r) ∧
      (visits.map fun v => v.module.fetch) =
        [⟨"https://a", "1.0.0"⟩, ⟨"https://a", "1.1.0-rc.1"⟩, ⟨"https://a", "1.0.0"⟩,
          ⟨"https://b", "1.0.0"⟩] ∧
      ((visits.filter fun v => v.IsFor "a" "1.0.0").length ≤ 1 ∨
        ∃ first second, (visits.filter fun v => v.IsFor "a" "1.0.0") = [first, second] ∧
          first.channel = "" ∧ Demand.isOffStable second.channel = true) := by
  have hsource : driftSurroundings.versions = driftRegistry.source none := rfl
  let places := [("https://a", ""), ("https://a", "rc"), ("https://b", "")]
  have hplaces : Cache.KeysApart places := by decide +kernel
  have hends : ((finish? driftSurroundings 10 driftStart).any fun r =>
      decide (r.failure = none ∧ r.agenda.Apart ∧ (∀ place ∈ r.agenda.kept, place ∈ places) ∧
        r.fetches = [⟨"https://a", "1.0.0"⟩, ⟨"https://a", "1.1.0-rc.1"⟩, ⟨"https://a", "1.0.0"⟩,
          ⟨"https://b", "1.0.0"⟩])) = true := by decide +kernel
  cases hrun : finish? driftSurroundings 10 driftStart with
  | none => simp [hrun] at hends
  | some r =>
    rw [hrun] at hends
    obtain ⟨hnone, hapart, hkept, hfetches⟩ := of_decide_eq_true hends
    obtain ⟨⟨_, hreach⟩, _⟩ := reachable_of_finish? hrun
    obtain ⟨tasks, visits, hcourse, hvisits, _, _, hall⟩ :=
      visits_lawful hsource rfl drift_within drift_starts hreach hapart (hplaces.mono hkept)
    exact ⟨r, tasks, visits, rfl, hnone, ⟨_, hcourse⟩, hvisits ▸ hfetches, hall "a" "1.0.0"⟩

/-- After three steps `a` was fetched twice at one version, and its request for `b` is there
twice. -/
theorem drift_visited_twice :
    ∃ start t r, Run.start driftGoal [] 1 { root := "/cache", ttl := 60 } = .ok start ∧
      Reachable driftSurroundings start t r ∧ r.failure = none ∧
      r.fetches.count ⟨"https://a", "1.0.0"⟩ = 2 ∧
      r.agenda.tasks.count { requirement := { name := "b" }, parent := "a@1.0.0" } = 2 := by
  refine ⟨driftStart, _, _, drift_starts, .next (.next (.next .initial ?_) ?_) ?_, ?_, ?_, ?_⟩ <;>
    decide +kernel

end Run

end ModulePins
