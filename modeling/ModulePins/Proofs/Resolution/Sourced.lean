import ModulePins.Proofs.Resolution.Steady
import ModulePins.Proofs.SemVer.Plain

/-!
# Where picks come from

In a registry of plain tags every pick is one of its tags, for the repository it is picked for. A
run that starts on an empty cache keeps to that: its cache holds nothing else, so it makes no
difference whether a pick comes from the cache or from the registry.
-/

namespace ModulePins

namespace Registry

/-- A registry without branches, in which all tags are plain and no repository has two tags for one
version. -/
structure IsPlain (r : Registry) : Prop where
  branches : r.branches = []
  plain : ∀ url, ∀ tag ∈ r.tagsOf url, IsPlainTag tag
  single : ∀ url, ∀ tag ∈ r.tagsOf url, ∀ other ∈ r.tagsOf url, ∀ v,
    SemVer.read? tag = some v → SemVer.read? other = some v → tag = other

theorem isPlain_of_tags {r : Registry} (hbranches : r.branches = [])
    (hplain : ∀ entry ∈ r.tags, ∀ tag ∈ entry.2, IsPlainTag tag)
    (hsingle : ∀ entry ∈ r.tags, ∀ tag ∈ entry.2, ∀ other ∈ entry.2,
      SemVer.read? tag = SemVer.read? other → tag = other) : r.IsPlain := by
  refine ⟨hbranches, ?_, ?_⟩
  · intro url tag htag
    obtain ⟨entry, hentry, hsame⟩ := exists_entry_of_mem_tagsOf htag
    exact hplain entry hentry tag (hsame ▸ htag)
  · intro url tag htag other hother v hread hread'
    obtain ⟨entry, hentry, hsame⟩ := exists_entry_of_mem_tagsOf htag
    rw [hsame] at htag hother
    exact hsingle entry hentry tag htag other hother (hread.trans hread'.symm)

/-- A registry has all tags of another one, and maybe more. -/
def Extends (r old : Registry) : Prop :=
  ∀ url, ∀ tag ∈ old.tagsOf url, tag ∈ r.tagsOf url

/-- A pick is a tag of a repository, and the tag names a version. -/
structure Offers (r : Registry) (url : String) (p : Pick) : Prop where
  immutable : p.mutable = false
  listed : p.tag ∈ r.tagsOf url
  named : ∃ v, SemVer.read? p.tag = some v

variable {r old : Registry} {q : Query} {p : Pick} {url : String}

theorem Offers.mono (hextends : r.Extends old) (h : old.Offers url p) : r.Offers url p where
  immutable := h.immutable
  listed := hextends url p.tag h.listed
  named := h.named

theorem offers_of_pick (hr : r.IsPlain) (h : r.pick q = .ok p) : r.Offers q.url p := by
  rcases pick_ok h with ⟨_, _, hbranch⟩ | ⟨himmutable, hlisted, v, hread, _⟩
  · simp [branch?, hr.branches] at hbranch
  · exact ⟨himmutable, hlisted, v, hread⟩

end Registry

namespace Location

theorem isLocal_https (name : String) : isLocal ("https://" ++ name) = false := by
  have hscheme : fileScheme = ['f', 'i', 'l', 'e', ':', '/', '/'] := by decide +kernel
  simp [isLocal, isFileUri, hscheme, ImportPath.occurs, List.isPrefixOf]

end Location

namespace Agenda

variable (tasks : List Task) (given : List PinnedModule) (name : String)

theorem uriOf_start : (start tasks [] given).uriOf name = "https://" ++ name := rfl

theorem isLocal_uriOf_start : Location.isLocal ((start tasks [] given).uriOf name) = false :=
  Location.isLocal_https name

end Agenda

namespace Cache

variable {c after : Cache} {registry : Registry} {now : Int} {places : List (String × String)}
variable {uri channel : String} {pick : Pick}

/-- A cache below a folder that holds nothing. -/
structure IsEmpty (c : Cache) : Prop where
  writable : c.rootIsFile = false
  slots : c.slots = []

/-- A cache that can be written, and holds for some repositories only what a registry offers. -/
structure Stocks (c : Cache) (registry : Registry) (places : List (String × String)) : Prop where
  writable : c.rootIsFile = false
  file : ∀ uri channel slot, c.slot? uri channel = some slot → slot.content ≠ .folder
  offered : ∀ place ∈ places, ∀ now, ∃ found, (c.get now place.1 place.2).outcome = .ok found ∧
    ∀ p, found = some p → registry.Offers place.1 p

theorem IsEmpty.stocks (h : c.IsEmpty) (registry : Registry) (places : List (String × String)) :
    c.Stocks registry places := by
  have hslot : ∀ uri channel, c.slot? uri channel = none := by
    intro uri channel
    simp [slot?, h.slots]
  refine ⟨h.writable, by simp [hslot], ?_⟩
  intro place _ now
  exact ⟨none, by simp [get, hslot, Report.ok], by simp⟩

theorem Stocks.exists_put (h : c.Stocks registry places) (uri channel : String) (pick : Pick) :
    ∃ after, c.put now uri channel pick = .ok after := by
  unfold put
  rw [if_neg (by simp [h.writable])]
  split
  · rename_i hfolder
    obtain ⟨slot, hslot, hcontent⟩ := Option.map_eq_some_iff.mp hfolder
    exact absurd hcontent (h.file uri channel slot hslot)
  · exact ⟨_, rfl⟩

theorem Stocks.of_put (h : c.Stocks registry places) (hapart : KeysApart places)
    (hplace : (uri, channel) ∈ places) (hoffer : registry.Offers uri pick)
    (hput : c.put now uri channel pick = .ok after) : after.Stocks registry places where
  writable := by
    obtain ⟨hroot, rfl⟩ := put_ok hput
    exact hroot
  file := by
    intro uri' channel' slot hslot
    obtain ⟨hroot, rfl⟩ := put_ok hput
    rw [slot?_fill hroot] at hslot
    split at hslot
    · cases hslot
      simp
    · exact h.file uri' channel' slot hslot
  offered := by
    rintro ⟨uri', channel'⟩ hplace' time
    by_cases hkey : cacheKey uri' channel' = cacheKey uri channel
    · obtain ⟨rfl, rfl⟩ := hapart.eq_of_cacheKey hplace' hplace hkey
      refine ⟨_, get_of_put hput time, ?_⟩
      intro p hp
      split at hp
      · rw [← Option.some.inj hp]
        exact hoffer
      · cases hp
    · rw [get_of_put_ne hput hkey]
      exact h.offered (uri', channel') hplace' time

end Cache

namespace Run

variable {registry : Registry} {shelf : Shelf} {now : Int} {later : Nat → Int}
variable {requirements : List Requirement} {first : Agenda} {t : Surroundings} {r r' : Run}

/-- The invariant of runs on a plain registry: no module is given, and all picks, whether in entries
or in the cache, are offered by the registry. -/
structure Sourced (registry : Registry) (places : List (String × String)) (first : Agenda)
    (r : Run) : Prop where
  stocked : r.cache.Stocks registry places
  picked : ∀ name e, r.agenda.find? name = some e → e.given = false ∧
    ∀ pick, e.pick = some pick → registry.Offers (first.uriOf name) pick

theorem Picked.offered {places : List (String × String)} {cache after : Cache}
    {asked queries : List Query} {uri : String} {before : Option Pick} {history : History}
    {pick : Pick} (hplain : registry.IsPlain) (hapart : Cache.KeysApart places)
    (hremote : Location.isLocal uri = false)
    (hbefore : ∀ p, before = some p → registry.Offers uri p)
    (hcache : cache.Stocks registry places) (hplace : (uri, history.channel) ∈ places)
    (h : Picked (.inMemory registry none shelf now later) cache asked uri before history pick after
      queries) :
    registry.Offers uri pick ∧ after.Stocks registry places := by
  cases h with
  | stays hwas _ => exact ⟨hbefore pick hwas, hcache⟩
  | here _ hlocal => simp [hremote] at hlocal
  | cached _ _ hget _ =>
    obtain ⟨found, hfound, hoffered⟩ := hcache.offered _ hplace now
    have hsame : found = some pick := Except.ok.inj (hfound.symm.trans hget)
    exact ⟨hoffered pick hsame, hcache⟩
  | asked _ _ _ _ hanswer hput =>
    have hoffer : registry.Offers uri pick := Registry.offers_of_pick hplain hanswer
    exact ⟨hoffer, hcache.of_put hapart hplace hoffer hput⟩

section Step

variable {task : Task} {rest : List Task} {d : Demand} {m : PinnedModule} {before : Entry}
variable {pick : Pick} {fetched : Option ModuleManifest}

theorem Taken.offered {places : List (String × String)} (hr : r.Sourced registry places first)
    (h : Taken r task rest d before) (p : Pick) (hp : before.pick = some p) :
    registry.Offers (first.uriOf task.requirement.name) p := by
  rcases h.before_eq with ⟨_, rfl⟩ | hfind
  · cases hp
  · exact (hr.picked _ _ hfind).2 p hp

theorem PickedStep.sourced (hplain : registry.IsPlain)
    (hapart : Cache.KeysApart (first.places requirements))
    (hremote : ∀ name, Location.isLocal (first.uriOf name) = false)
    (htame : r.Tame (.inMemory registry none shelf now later) requirements first)
    (hr : r.Sourced registry (first.places requirements) first)
    (h : PickedStep (.inMemory registry none shelf now later) r r' task rest d m before pick fetched) :
    r'.Sourced registry (first.places requirements) first := by
  have hpicked := h.picked
  rw [h.uri_eq htame, h.own] at hpicked
  obtain ⟨hoffer, hcache⟩ := hpicked.offered hplain hapart (hremote _) (h.toTaken.offered hr)
    hr.stocked (h.toTaken.mem_places htame)
  refine ⟨hcache, ?_⟩
  intro name e hfind
  rw [h.find] at hfind
  split at hfind
  · rename_i hname
    cases hfind
    refine ⟨rfl, ?_⟩
    intro p hp
    cases hp
    rw [hname, h.own]
    exact hoffer
  · exact hr.picked name e hfind

end Step

theorem sourced_transition (hplain : registry.IsPlain)
    (hapart : Cache.KeysApart (first.places requirements))
    (hremote : ∀ name, Location.isLocal (first.uriOf name) = false)
    (htame : r.Tame (.inMemory registry none shelf now later) requirements first)
    (hr : r.Sourced registry (first.places requirements) first)
    (h : Transition (.inMemory registry none shelf now later) r r') (hfailure : r'.failure = none) :
    r'.Sourced registry (first.places requirements) first := by
  cases h with
  | lost _ _ => exact ⟨hr.stocked, hr.picked⟩
  | failed hfailed _ => simp [hfailure] at hfailed
  | given h =>
    have hnew := (hr.picked _ _ h.was).1
    simp [h.given] at hnew
  | picked h => exact h.sourced hplain hapart hremote htame hr

theorem sourced_start (tasks : List Task) (workers : Nat) {cache : Cache} (hcache : cache.IsEmpty)
    (places : List (String × String)) :
    Sourced registry places (.start tasks [] [])
      { agenda := .start tasks [] [], cache, workers } where
  stocked := hcache.stocks registry places
  picked := by
    intro name e hfind
    obtain ⟨_, hm, _⟩ := Agenda.find?_start name tasks [] [] .top e hfind
    cases hm

/-- Runs on a plain registry and an empty cache stay tame, and their picks stay sourced. -/
theorem sourced_reachable {tasks : List Task} {cache : Cache} {workers : Nat} {start : Run}
    (hs : (Surroundings.inMemory registry none shelf now later).Steady requirements)
    (hplain : registry.IsPlain) (hcache : cache.IsEmpty)
    (htasks : ∀ task ∈ tasks, task.requirement ∈ requirements)
    (hapart : Cache.KeysApart ((Agenda.start tasks [] []).places requirements))
    (hstart : start = { agenda := .start tasks [] [], cache, workers })
    (h : Reachable (.inMemory registry none shelf now later) start t r)
    (hfailure : r.failure = none) :
    r.Tame (.inMemory registry none shelf now later) requirements (.start tasks [] []) ∧
      r.Sourced registry ((Agenda.start tasks [] []).places requirements)
        (.start tasks [] []) := by
  subst hstart
  refine invariant_of_transition
    (P := fun r => r.Tame (.inMemory registry none shelf now later) requirements (.start tasks [] []) ∧
      r.Sourced registry ((Agenda.start tasks [] []).places requirements) (.start tasks [] []))
    (isSound_start tasks [] [] .top)
    ⟨tame_start [] [] .top cache workers htasks, sourced_start tasks workers hcache _⟩ ?_ h hfailure
  rintro time times r r' _ _ ⟨htame, hsourced⟩ htransition hnone
  have hnow := htame.of_manifests (t := .inMemory registry none shelf time times) rfl
  exact ⟨tame_transition_withClock hs time times hapart htame htransition hnone,
    sourced_transition hplain hapart (Agenda.isLocal_uriOf_start tasks []) hnow hsourced
      htransition hnone⟩

end Run

end ModulePins
