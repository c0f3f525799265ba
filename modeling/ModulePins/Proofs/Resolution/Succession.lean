import ModulePins.Proofs.Resolution.Answers
import ModulePins.Proofs.Resolution.Turn

/-!
# Runs on one cache

Runs are made one after the other on one cache and one registry. Whatever the cache holds are
answers to queries of these runs. What a later run takes from there it checks against its own
constraints, so that the registry could have picked it, too, with one exception: a pre-release that
an earlier query had asked for with a constraint is also taken where nothing at all is asked.
-/

namespace ModulePins

namespace Cache

variable {c after : Cache} {now later : Int} {uri channel uri' channel' : String}
  {pick found : Pick}

theorem get_congr (c : Cache) (now : Int)
    (hkey : cacheKey uri' channel' = cacheKey uri channel) :
    c.get now uri' channel' = c.get now uri channel := by
  simp only [get, slot?, pathOf, folderOf, hkey]

theorem get_put_cases (hput : c.put now uri channel pick = .ok after)
    (hget : (after.get later uri' channel').outcome = .ok (some found)) :
    (cacheKey uri channel = cacheKey uri' channel' ∧ pick = found) ∨
      (c.get later uri' channel').outcome = .ok (some found) := by
  by_cases hkey : cacheKey uri' channel' = cacheKey uri channel
  · rw [get_congr after later hkey, get_of_put hput] at hget
    split at hget
    · exact .inl ⟨hkey.symm, by simpa using hget⟩
    · cases hget
  · rw [get_of_put_ne hput hkey] at hget
    exact .inr hget

end Cache

namespace Registry

variable {registry : Registry} {q q' : Query} {pick : Pick}

/-- An answer to one query that satisfies the constraints of another one for the same repository and
channel may be picked for that, unless it is a pre-release and nothing is asked there. -/
theorem admits_or_prerelease (h : registry.pick q' = .ok pick) (himmutable : pick.mutable = false)
    (hurl : q'.url = q.url) (hchannel : q'.channel = q.channel)
    (hsatisfies : ∀ text ∈ q.constraints, Satisfies pick.tag text) :
    pick.tag ∈ registry.tagsOf q.url ∧ ∃ v, SemVer.read? pick.tag = some v ∧
      (q.Admits v ∨ v.isPrerelease = true ∧ q.channel = "" ∧ q.constraints = [] ∧
        q'.constraints ≠ []) := by
  rcases pick_ok h with ⟨hmutable, _⟩ | ⟨_, hlisted, v, hread, hadmits⟩
  · simp [himmutable] at hmutable
  refine ⟨hurl ▸ hlisted, v, hread, ?_⟩
  have hadmitted : ∀ text ∈ q.constraints, ∃ c, Constraint.read text = .ok c ∧ c.admits v = true := by
    intro text htext
    obtain ⟨c, hc, hadmits⟩ := hsatisfies text htext
    exact ⟨c, hc, by simpa [Constraint.admitsText, hread] using hadmits⟩
  by_cases hnothing : v.isPrerelease = true ∧ q.channel = "" ∧ q.constraints = []
  · obtain ⟨hpre, hnone, hnil⟩ := hnothing
    exact .inr ⟨hpre, hnone, hnil, hadmits.noted hpre (hchannel.trans hnone)⟩
  · exact .inl ⟨fun hpre hnone hnil => hnothing ⟨hpre, hnone, hnil⟩, hadmitted⟩

end Registry

namespace Run

variable {s : Surroundings} {r r' start ended : Run} {source : VersionSource}
variable {asked queries : List Query} {cache : Cache}

/-- A pick is the answer to one of the queries, whose answers are kept in the file of the place. -/
def KeptFor (source : VersionSource) (queries : List Query) (uri channel : String) (pick : Pick) :
    Prop :=
  ∃ q ∈ queries, cacheKey q.url q.channel = cacheKey uri channel ∧ source [] q = .ok pick

/-- Everything that the cache holds is the answer to one of the queries. -/
def Vouched (source : VersionSource) (queries : List Query) (cache : Cache) : Prop :=
  ∀ now uri channel found, (cache.get now uri channel).outcome = .ok (some found) →
    KeptFor source queries uri channel found

/-- How a pick agrees with a history: it is the answer to it, or it satisfies all constraints and is
the answer to one of the queries. -/
inductive Vetted (source : VersionSource) (queries : List Query) (uri : String) (history : History)
    (pick : Pick) : Prop
  | answered (h : source [] (history.query uri) = .ok pick)
  | reused (husable : isUsable history.constraints pick = true)
      (h : KeptFor source queries uri history.channel pick)

theorem KeptFor.mono {more : List Query} {uri channel : String} {pick : Pick}
    (h : KeptFor source queries uri channel pick) (hall : ∀ q ∈ queries, q ∈ more) :
    KeptFor source more uri channel pick := by
  obtain ⟨q, hq, hkey, hanswer⟩ := h
  exact ⟨q, hall q hq, hkey, hanswer⟩

theorem Vouched.mono {more : List Query} (h : Vouched source queries cache)
    (hall : ∀ q ∈ queries, q ∈ more) : Vouched source more cache :=
  fun now uri channel found hget => (h now uri channel found hget).mono hall

theorem Vetted.mono {more : List Query} {uri : String} {history : History} {pick : Pick}
    (h : Vetted source queries uri history pick) (hall : ∀ q ∈ queries, q ∈ more) :
    Vetted source more uri history pick := by
  cases h with
  | answered h => exact .answered h
  | reused husable h => exact .reused husable (h.mono hall)

section Picked

variable {after : Cache} {made : List Query} {uri : String} {before : Option Pick}
variable {history : History} {pick : Pick}

theorem Picked.vouched (hstateless : s.versions.Stateless)
    (hcache : Vouched s.versions (asked ++ queries) cache)
    (h : Picked s cache queries uri before history pick after made) :
    Vouched s.versions (asked ++ made) after := by
  cases h with
  | stays _ _ => exact hcache
  | here _ _ => exact hcache
  | cached _ _ _ _ => exact hcache
  | asked _ _ _ _ hanswer hput =>
    intro later uri' channel' found hget
    rcases Cache.get_put_cases hput hget with ⟨hkey, rfl⟩ | hget
    · rw [hstateless] at hanswer
      exact ⟨history.query uri, by simp, hkey, hanswer⟩
    · rw [← List.append_assoc]
      exact (hcache later uri' channel' found hget).mono fun _ => List.mem_append_left _

theorem Picked.vetted (hstateless : s.versions.Stateless)
    (hcache : Vouched s.versions (asked ++ queries) cache)
    (h : Picked s cache queries uri before history pick after made)
    (himmutable : pick.mutable = false) :
    Vetted s.versions (asked ++ queries) uri history pick := by
  cases h with
  | stays _ hmutable => simp [himmutable] at hmutable
  | here _ _ => cases himmutable
  | cached _ _ hget husable => exact .reused husable (hcache _ _ _ _ hget)
  | asked _ _ _ _ hanswer _ =>
    rw [hstateless] at hanswer
    exact .answered hanswer

end Picked

/-- The invariant of a run on a cache that holds answers to the queries `asked`. -/
structure Orderly (source : VersionSource) (asked : List Query) (r : Run) : Prop where
  vouched : Vouched source (asked ++ r.queries) r.cache
  vetted : r.failure = none → ∀ name e, r.agenda.find? name = some e → e.given = false →
    ∃ pick, e.chosen = some (pick.pinned name (r.agenda.uriOf name)) ∧
      (pick.mutable = false →
        Vetted source (asked ++ r.queries) (r.agenda.uriOf name) e.history pick)

theorem Turn.vouched (hstateless : s.versions.Stateless)
    (hr : Vouched s.versions (asked ++ r.queries) r.cache) (h : Turn s r r') :
    Vouched s.versions (asked ++ r'.queries) r'.cache := by
  cases h with
  | lost _ _ => exact hr
  | given _ _ _ _ _ _ h =>
    rw [h.queries, h.cache]
    exact hr
  | refused _ hrefused =>
    exact hr.mono fun q hq => (List.prefix_append_right_inj asked).mpr hrefused.queries |>.subset hq
  | picked _ _ hpicked h =>
    rw [h.queries, h.cache]
    exact hpicked.vouched hstateless hr

theorem Orderly.turn (hstateless : s.versions.Stateless) (hr : r.Orderly s.versions asked)
    (hnone : r.failure = none) (h : Turn s r r') : r'.Orderly s.versions asked where
  vouched := h.vouched hstateless hr.vouched
  vetted := by
    intro hnone' name e hfind hgiven
    have hall : ∀ q ∈ asked ++ r.queries, q ∈ asked ++ r'.queries := fun q hq =>
      (List.prefix_append_right_inj asked).mpr h.queries_prefix |>.subset hq
    rw [Agenda.uriOf_congr h.replacements]
    rcases h.find?_cases name with hsame | ⟨old, _, _, hold, _, hfind'⟩ | ⟨_, _, d, before, _, rfl,
      ⟨hfailed, _⟩ | ⟨pick, hpicked, hfind'⟩⟩
    · obtain ⟨pick, hchosen, hvetted⟩ := hr.vetted hnone name e (hsame.symm.trans hfind) hgiven
      exact ⟨pick, hchosen, fun himmutable => (hvetted himmutable).mono hall⟩
    · rw [hfind', Option.some.injEq] at hfind
      subst hfind
      simp [hold] at hgiven
    · simp [hnone'] at hfailed
    · rw [hfind', Option.some.injEq] at hfind
      subst hfind
      exact ⟨pick, rfl, fun himmutable =>
        (hpicked.vetted hstateless hr.vouched himmutable).mono hall⟩

theorem orderly_start {tasks : List Task} {replacements : List (String × String)}
    {given : List PinnedModule} {base : Path} {workers : Nat}
    (hcache : Vouched source asked cache) :
    Orderly source asked { agenda := .start tasks replacements given base, cache, workers } where
  vouched := by simpa using hcache
  vetted := by
    intro _ name e hfind hgiven
    obtain ⟨_, _, _, rfl⟩ := Agenda.find?_start name tasks replacements given base e hfind
    cases hgiven

theorem orderly_of_finish? {goal : Goal} {given : List PinnedModule} {base : Path} {limit : Nat}
    (hstateless : s.versions.Stateless) (hcache : Vouched s.versions asked cache)
    (hstart : Run.start goal given 1 cache base = .ok start)
    (hrun : finish? s limit start = some ended) : ended.Orderly s.versions asked := by
  obtain ⟨_, rfl⟩ := start_ok hstart
  obtain ⟨⟨_, hreach⟩, _⟩ := reachable_of_finish? hrun
  refine invariant_of_turn (P := fun r => r.Orderly s.versions asked) (isSound_start _ _ _ _)
    (orderly_start hcache) ?_ hreach
  intro now later r r' hnone hr hturn
  exact Orderly.turn (s := { s with now, later }) hstateless hr hnone hturn

/-- Runs made one after the other on one cache, which was empty at first, with all queries that they
made, and the cache that they leave behind. Some of the runs may have failed. -/
inductive Succession (source : VersionSource) : List Query → Cache → Prop
  | empty {cache : Cache} (hempty : cache.slots = []) : Succession source [] cache
  | next {queries : List Query} {cache : Cache} {s : Surroundings} {goal : Goal}
      {given : List PinnedModule} {base : Path} {limit : Nat} {start ended : Run}
      (h : Succession source queries cache) (hversions : s.versions = source)
      (hstart : Run.start goal given 1 cache base = .ok start)
      (hrun : finish? s limit start = some ended) :
      Succession source (queries ++ ended.queries) ended.cache

theorem Succession.vouched (hstateless : source.Stateless) (h : Succession source queries cache) :
    Vouched source queries cache := by
  induction h with
  | @empty cache hempty =>
    intro now uri channel found hget
    have hnone : cache.slot? uri channel = none := by simp [Cache.slot?, hempty]
    simp [Cache.get, hnone, Report.ok] at hget
  | next _ hversions hstart hrun ih =>
    subst hversions
    exact (orderly_of_finish? hstateless ih hstart hrun).vouched

section Registry

variable {registry : Registry} {failing : Option Failure} {uri : String} {history : History}
variable {pick : Pick}

theorem Vetted.satisfies (h : Vetted (registry.source failing) queries uri history pick)
    (himmutable : pick.mutable = false) :
    ∀ text ∈ history.constraints, Satisfies pick.tag text := by
  cases h with
  | answered h => exact Registry.honours registry failing _ _ _ h himmutable
  | reused husable _ => exact isUsable_iff.mp husable himmutable

/-- A pick that agrees with a history may be picked for it, or is a pre-release that one of the
queries had asked for. -/
theorem Vetted.admits (h : Vetted (registry.source failing) queries uri history pick)
    (himmutable : pick.mutable = false)
    (hapart : Cache.KeysApart
      ((uri, history.channel) :: queries.map fun q => (q.url, q.channel))) :
    pick.tag ∈ registry.tagsOf uri ∧ ∃ v, SemVer.read? pick.tag = some v ∧
      ((history.query uri).Admits v ∨
        v.isPrerelease = true ∧ history.channel = "" ∧ history.constraints = [] ∧
          ∃ q ∈ queries, q.url = uri ∧ q.channel = "" ∧ q.constraints ≠ [] ∧
            registry.pick q = .ok pick) := by
  have hsatisfies := h.satisfies himmutable
  cases h with
  | answered h =>
    obtain ⟨hlisted, v, hread, hadmits | ⟨_, _, hnil, hne⟩⟩ :=
      Registry.admits_or_prerelease (q := history.query uri) (Registry.pick_of_source h) himmutable
        rfl rfl hsatisfies
    · exact ⟨hlisted, v, hread, .inl hadmits⟩
    · exact absurd hnil hne
  | reused _ h =>
    obtain ⟨q, hq, hkey, hanswer⟩ := h
    have hplace : (q.url, q.channel) ∈
        (uri, history.channel) :: queries.map fun q => (q.url, q.channel) :=
      List.mem_cons_of_mem _ (List.mem_map.mpr ⟨q, hq, rfl⟩)
    obtain ⟨hurl, hchannel⟩ := hapart.eq_of_cacheKey hplace List.mem_cons_self hkey
    have hpick := Registry.pick_of_source hanswer
    obtain ⟨hlisted, v, hread, hadmits | ⟨hpre, hnone, hnil, hne⟩⟩ :=
      Registry.admits_or_prerelease (q := history.query uri) hpick himmutable hurl hchannel
        hsatisfies
    · exact ⟨hlisted, v, hread, .inl hadmits⟩
    · exact ⟨hlisted, v, hread,
        .inr ⟨hpre, hnone, hnil, q, hq, hurl, hchannel.trans hnone, hne, hpick⟩⟩

end Registry

theorem exists_entry_of_mem_resolved {names : List String} {m : PinnedModule}
    (hsound : r.agenda.IsSound) (hgivenAmong : r.GivenAmong names) (hm : m ∈ r.agenda.resolved)
    (hnew : m.name ∉ names) :
    ∃ name e, r.agenda.find? name = some e ∧ e.chosen = some m ∧ e.given = false := by
  obtain ⟨name, _, hchosen⟩ := List.mem_filterMap.mp hm
  obtain ⟨e, hfind, hchosen⟩ := Option.bind_eq_some_iff.mp hchosen
  refine ⟨name, e, hfind, hchosen, ?_⟩
  cases hgiven : e.given with
  | false => rfl
  | true =>
    obtain ⟨own, hown, hname⟩ := hsound name e hfind hgiven
    rw [hchosen, Option.some.injEq] at hown
    rw [hown, hname] at hnew
    exact absurd (hgivenAmong name e hfind hgiven) hnew

/-- When runs share a registry and a cache that was empty at first, then every module that one of
them returns without having been given it, and whose version does not move, satisfies all
constraints of its history. Its version is a tag that the registry may pick for the history, or else
a pre-release: nothing is asked of the module then, and the version was picked for a query with
constraints. -/
theorem succession_eligible {registry : Registry} {failing : Option Failure} {goal : Goal}
    {given : List PinnedModule} {base : Path} {limit : Nat} {modules : List PinnedModule}
    (hbefore : Succession (registry.source failing) asked cache)
    (hversions : s.versions = registry.source failing)
    (hstart : Run.start goal given 1 cache base = .ok start)
    (hrun : finish? s limit start = some ended) (hreturn : ended.outcome = .ok modules) :
    ∀ m ∈ modules, m.name ∉ (goal.injected given).map PinnedModule.name → m.mutable = false →
      (∀ text ∈ (ended.agenda.history m.name).constraints, Satisfies m.version text) ∧
        (Cache.KeysApart ((m.uri, (ended.agenda.history m.name).channel) ::
            (asked ++ ended.queries).map fun q => (q.url, q.channel)) →
          m.version ∈ registry.tagsOf m.uri ∧ ∃ v, SemVer.read? m.version = some v ∧
            (((ended.agenda.history m.name).query m.uri).Admits v ∨
              v.isPrerelease = true ∧ (ended.agenda.history m.name).channel = "" ∧
                (ended.agenda.history m.name).constraints = [] ∧
                  ∃ q ∈ asked ++ ended.queries, q.url = m.uri ∧ q.channel = "" ∧
                    q.constraints ≠ [] ∧ registry.pick q = .ok m.pick)) := by
  obtain ⟨hfailure, rfl⟩ := outcome_ok hreturn
  have hstateless := registry.stateless failing
  have hcache := hbefore.vouched hstateless
  rw [← hversions] at hstateless hcache
  have horderly := orderly_of_finish? hstateless hcache hstart hrun
  obtain ⟨⟨_, hreach⟩, _⟩ := reachable_of_finish? hrun
  have hsound := isSound_reachable (isSound_of_start hstart) hreach hfailure
  have hgivenAmong := givenAmong_reachable hstart hreach
  intro m hm hnew himmutable
  obtain ⟨name, e, hfind, hchosen, hgiven⟩ :=
    exists_entry_of_mem_resolved hsound hgivenAmong hm hnew
  obtain ⟨pick, hpick, hvetted⟩ := horderly.vetted hfailure name e hfind hgiven
  rw [hchosen, Option.some.injEq] at hpick
  subst hpick
  have hhistory : ended.agenda.history name = e.history := ended.agenda.history_of_find? name hfind
  have hvetted := hvetted himmutable
  rw [hversions, ← hhistory] at hvetted
  exact ⟨hvetted.satisfies himmutable, hvetted.admits himmutable⟩

/-- A registry whose highest version is a pre-release. -/
def previewRegistry : Registry where
  tags := [("https://a", ["1.0.0", "1.1.0-rc.1"])]

/-- What is at hand in the second `now`. -/
def previewAt (now : Int) : Surroundings :=
  .inMemory previewRegistry none { items := [{ uri := "https://a", manifest := { name := "a" } }] } now
    fun n => now + n + 1

/-- A project that asks for the pre-release. -/
def eagerGoal : Goal :=
  .project { name := "svc", modules := [{ name := "a", version := ">=1.1.0-rc.1" }] }

def plainGoal : Goal :=
  .project { name := "svc", modules := [{ name := "a" }] }

def eagerStart : Run where
  agenda := .start eagerGoal.tasks [] []
  cache := { root := "/cache" }

def plainStart (cache : Cache) : Run where
  agenda := .start plainGoal.tasks [] []
  cache := cache

def previewModule : PinnedModule :=
  { name := "a", uri := "https://a", version := "1.1.0-rc.1" }

/-- What is on record for `a` in the second run. -/
def plainHistory : History :=
  [{ constraint := "", channel := "", parent := "svc (top-level)" }]

/-- Both projects are resolved, one after the other on the same cache. -/
theorem preview_runs :
    ∃ first ended, finish? (previewAt 0) 1 eagerStart = some first ∧
      finish? (previewAt 1) 1 (plainStart first.cache) = some ended ∧
        ended.outcome.toOption = some [previewModule] ∧
        ended.agenda.history "a" = plainHistory ∧
        Cache.KeysApart (("https://a", plainHistory.channel) ::
          (first.queries ++ ended.queries).map fun q => (q.url, q.channel)) := by
  obtain ⟨first, hfirst, hsecond⟩ : ∃ first, finish? (previewAt 0) 1 eagerStart = some first ∧
      ((finish? (previewAt 1) 1 (plainStart first.cache)).any fun ended =>
        decide (ended.outcome.toOption = some [previewModule] ∧
          ended.agenda.history "a" = plainHistory ∧
          Cache.KeysApart (("https://a", plainHistory.channel) ::
            (first.queries ++ ended.queries).map fun q => (q.url, q.channel)))) = true := by
    apply exists_of_any
    decide +kernel
  obtain ⟨ended, hended, hall⟩ := exists_of_any hsecond
  exact ⟨first, ended, hfirst, hended, hall⟩

theorem eager_starts : Run.start eagerGoal [] 1 { root := "/cache" } = .ok eagerStart :=
  rfl

theorem plain_starts (cache : Cache) : Run.start plainGoal [] 1 cache = .ok (plainStart cache) :=
  rfl

/-- The pre-release in the result of the second run was picked for a query with constraints. -/
theorem succession_eligible_preview :
    ∃ queries cache ended, Succession (previewRegistry.source none) queries cache ∧
      finish? (previewAt 1) 1 (plainStart cache) = some ended ∧
        ended.outcome = .ok [previewModule] ∧
        ∃ q ∈ queries ++ ended.queries, q.url = "https://a" ∧ q.channel = "" ∧
          q.constraints ≠ [] ∧ previewRegistry.pick q = .ok previewModule.pick := by
  obtain ⟨first, ended, hfirst, hended, hmodules, hhistory, hapart⟩ := preview_runs
  have hbefore : Succession (previewRegistry.source none) ([] ++ first.queries) first.cache :=
    .next (.empty rfl) rfl eager_starts hfirst
  have hreturn := ok_of_toOption hmodules
  refine ⟨_, _, ended, hbefore, hended, hreturn, ?_⟩
  obtain ⟨_, heligible⟩ := succession_eligible hbefore rfl (plain_starts first.cache) hended hreturn
    previewModule (by decide) (by decide) rfl
  have hname : previewModule.name = "a" := rfl
  have huri : previewModule.uri = "https://a" := rfl
  rw [hname, huri, hhistory, List.nil_append] at heligible
  rw [List.nil_append]
  obtain ⟨_, v, hread, hadmits | ⟨_, _, _, hquery⟩⟩ := heligible hapart
  · have hpre : v.isPrerelease = true := by
      have hall : (SemVer.read? previewModule.version).all SemVer.isPrerelease = true := by
        decide +kernel
      rwa [hread] at hall
    exact absurd rfl (hadmits.noted hpre rfl)
  · exact hquery

/-- The registry would not pick it for the second run, which asks for nothing. -/
theorem succession_unwanted :
    ∃ first ended,
      Run.start eagerGoal [] 1 { root := "/cache" } = .ok eagerStart ∧
        finish? (previewAt 0) 1 eagerStart = some first ∧
        Run.start plainGoal [] 1 first.cache = .ok (plainStart first.cache) ∧
        finish? (previewAt 1) 1 (plainStart first.cache) = some ended ∧
        ended.outcome = .ok [previewModule] ∧ ended.agenda.history "a" = plainHistory ∧
        (SemVer.read? previewModule.version).map SemVer.isPrerelease = some true ∧
        (previewRegistry.pick (plainHistory.query "https://a")).toOption =
          some { tag := "1.0.0" } := by
  obtain ⟨first, ended, hfirst, hended, hmodules, hhistory, _⟩ := preview_runs
  exact ⟨first, ended, rfl, hfirst, rfl, hended, ok_of_toOption hmodules, hhistory,
    by decide +kernel, by decide +kernel⟩

end Run

end ModulePins
