import Mathlib.Data.List.Nodup
import ModulePins.Proofs.Resolution.Constraints
import ModulePins.Proofs.Resolution.Sourced
import ModulePins.Proofs.Resolution.Termination

/-!
# Replays

A run whose first requests pin all modules of an earlier result gives that result again, in another
order. The requests pin every module before any manifest is expanded, so every module is picked at
the version it had. Then only manifests of the earlier result are expanded, and what they ask for
was satisfied by it.
-/

namespace ModulePins

/-- A demand for the version of one module and nothing else. -/
structure Demand.Pins (d : Demand) (m : PinnedModule) : Prop where
  constraint : d.constraint = m.version
  channel : d.channel = ""

/-- A task that pins a module. -/
def Task.Pins (task : Task) (m : PinnedModule) : Prop :=
  task.requirement.name = m.name ∧ ∃ d, Agenda.demand task = .ok d ∧ d.Pins m

/-- A task that pins a module, or asks of it what is among the demands `asked`. -/
def Task.Suits (task : Task) (asked : History) (m : PinnedModule) : Prop :=
  task.requirement.name = m.name ∧ ∃ d, Agenda.demand task = .ok d ∧ (d.Pins m ∨ d ∈ asked)

/-- A history in which a module is pinned, and asked for nothing else than what is in `asked`. -/
structure History.Replays (history asked : History) (m : PinnedModule) : Prop where
  pinned : ∃ d ∈ history, d.Pins m
  known : ∀ d ∈ history, d.Pins m ∨ d ∈ asked

/-- A result that can be replayed on a registry and a shelf. Each module suits the demands `asked`
of it, and these contain what the manifests of the modules ask. -/
structure Replayable (registry : Registry) (shelf : Shelf) (asked : String → History)
    (modules : List PinnedModule) : Prop where
  nodup : (modules.map PinnedModule.name).Nodup
  located : ∀ m ∈ modules, m.uri = "https://" ++ m.name
  offered : ∀ m ∈ modules, registry.Offers m.uri m.pick
  served : ∀ m ∈ modules, ∃ manifest, shelf.manifest m.uri m.version = .ok manifest ∧
    manifest.name = m.name ∧
    ∀ task ∈ manifest.tasks m, ∃ other ∈ modules, task.Suits (asked other.name) other
  satisfied : ∀ m ∈ modules, ∀ text ∈ (asked m.name).constraints, Satisfies m.version text
  agreed : ∀ m ∈ modules, ∀ d ∈ asked m.name, Demand.isOffStable d.channel = true →
    d.channel = (asked m.name).channel

theorem History.channel_of_agreed {history : History} {d : Demand} {channel : String}
    (h : ∀ old ∈ history, Demand.isOffStable old.channel = true → old.channel = channel)
    (hd : d ∈ history) (hoff : Demand.isOffStable d.channel = true) :
    d.channel = history.channel := by
  have hsome : (history.pinning?).isSome = true := by
    rw [History.pinning?, List.find?_isSome]
    exact ⟨d, hd, hoff⟩
  obtain ⟨pinned, hpinned⟩ := Option.isSome_iff_exists.mp hsome
  have hfound : history.find? (fun old => Demand.isOffStable old.channel) = some pinned := hpinned
  have hpinnedOff := List.find?_some hfound
  rw [History.channel, hpinned, h d hd hoff, Option.map_some, Option.getD_some,
    h pinned (List.mem_of_find?_eq_some hfound) hpinnedOff]

namespace Replayable

variable {registry old : Registry} {shelf : Shelf} {asked : String → History}
variable {modules : List PinnedModule} {m m' : PinnedModule} {history : History}

theorem mono (hextends : registry.Extends old) (h : Replayable old shelf asked modules) :
    Replayable registry shelf asked modules :=
  { h with offered := fun m hm => (h.offered m hm).mono hextends }

theorem unique (h : Replayable registry shelf asked modules) (hm : m ∈ modules)
    (hm' : m' ∈ modules) (hname : m.name = m'.name) : m = m' :=
  List.inj_on_of_nodup_map h.nodup hm hm' hname

theorem version_ne_empty (h : Replayable registry shelf asked modules) (hm : m ∈ modules) :
    m.version ≠ "" := by
  intro hempty
  obtain ⟨v, hread⟩ := (h.offered m hm).named
  have hnone : SemVer.read? "" = none := by decide
  change SemVer.read? m.version = some v at hread
  rw [hempty, hnone] at hread
  cases hread

theorem satisfies_self (hplain : registry.IsPlain) (h : Replayable registry shelf asked modules)
    (hm : m ∈ modules) : Satisfies m.version m.version := by
  obtain ⟨v, hread⟩ := (h.offered m hm).named
  have htag := hplain.plain _ _ (h.offered m hm).listed
  exact ⟨_, (plain_cases htag hread).2, (admitsText_exactly htag htag hread).mpr hread⟩

theorem isConstraint_version (hplain : registry.IsPlain)
    (h : Replayable registry shelf asked modules) (hm : m ∈ modules) :
    isConstraint m.version = .ok true := by
  obtain ⟨c, hread, _⟩ := h.satisfies_self hplain hm
  rw [isConstraint, hread]

/-- A task for the version of a module, and for no channel, pins the module. -/
theorem pins_of_version (hplain : registry.IsPlain) (h : Replayable registry shelf asked modules)
    (hm : m ∈ modules) {task : Task} (hname : task.requirement.name = m.name)
    (hversion : task.requirement.version = m.version)
    (hchannel : task.requirement.requestedChannel = "") : task.Pins m := by
  refine ⟨hname, { constraint := m.version, channel := "", parent := task.parent }, ?_, rfl, rfl⟩
  simp [Agenda.demand, hversion, hchannel, h.version_ne_empty hm,
    h.isConstraint_version hplain hm, bind, Except.bind, pure, Except.pure]

theorem satisfies (hplain : registry.IsPlain) (h : Replayable registry shelf asked modules)
    (hm : m ∈ modules) (hhistory : history.Replays (asked m.name) m) :
    ∀ text ∈ history.constraints, Satisfies m.version text := by
  intro text htext
  obtain ⟨hne, d, hd, rfl⟩ := (History.mem_constraints _ _).mp htext
  rcases hhistory.known d hd with hpins | hasked
  · rw [hpins.constraint]
    exact h.satisfies_self hplain hm
  · exact h.satisfied m hm _ ((History.mem_constraints _ _).mpr ⟨hne, d, hasked, rfl⟩)

theorem agreed_replay (h : Replayable registry shelf asked modules) (hm : m ∈ modules)
    (hhistory : history.Replays (asked m.name) m) {d : Demand} (hd : d ∈ history)
    (hoff : Demand.isOffStable d.channel = true) : d.channel = history.channel := by
  have hall : ∀ other ∈ history, Demand.isOffStable other.channel = true →
      other.channel = (asked m.name).channel := by
    intro other hother hotherOff
    rcases hhistory.known other hother with hpins | hasked
    · simp [Demand.isOffStable, hpins.channel] at hotherOff
    · exact h.agreed m hm other hasked hotherOff
  exact History.channel_of_agreed hall hd hoff

/-- Of all that the registry offers only the version of a module satisfies that version. -/
theorem eq_pick (hplain : registry.IsPlain) (h : Replayable registry shelf asked modules)
    (hm : m ∈ modules) {p : Pick} (hoffer : registry.Offers m.uri p)
    (hsatisfies : Satisfies p.tag m.version) : p = m.pick := by
  have hpin := h.offered m hm
  obtain ⟨v, hread⟩ := hpin.named
  have htag := hplain.plain _ _ hpin.listed
  obtain ⟨c, hc, hadmits⟩ := hsatisfies
  have hexact : exactly m.version v = c :=
    Except.ok.inj ((plain_cases htag hread).2.symm.trans hc)
  rw [← hexact] at hadmits
  have hsame := (admitsText_exactly (hplain.plain _ _ hoffer.listed) htag hread).mp hadmits
  have htags := hplain.single _ _ hoffer.listed _ hpin.listed v hsame hread
  obtain ⟨tag, isMutable⟩ := p
  cases htags
  cases hoffer.immutable
  simp only [PinnedModule.pick, Pick.mk.injEq, true_and]
  exact hpin.immutable.symm

theorem exists_pick (hplain : registry.IsPlain) (h : Replayable registry shelf asked modules)
    (hm : m ∈ modules) (hhistory : history.Replays (asked m.name) m) :
    ∃ p, registry.pick (history.query m.uri) = .ok p := by
  have hpin := h.offered m hm
  obtain ⟨v, hread⟩ := hpin.named
  obtain ⟨⟨major, minor, patch, rfl⟩, _⟩ := plain_cases (hplain.plain _ _ hpin.listed) hread
  refine Registry.exists_pick hplain.branches hpin.listed hread ⟨?_, ?_⟩
  · intro hpre
    cases hpre
  · intro text htext
    obtain ⟨c, hc, hadmits⟩ := h.satisfies hplain hm hhistory text htext
    refine ⟨c, hc, ?_⟩
    rw [PinnedModule.pick] at hread
    simpa [Constraint.admitsText, hread] using hadmits

theorem pinned_pick (h : Replayable registry shelf asked modules) (hm : m ∈ modules) :
    m.pick.pinned m.name ("https://" ++ m.name) = m := by
  rw [← h.located m hm]
  rfl

end Replayable

namespace Run

variable {registry : Registry} {shelf : Shelf} {now : Int} {later : Nat → Int}
variable {asked : String → History} {t : Surroundings}
variable {modules : List PinnedModule} {requirements : List Requirement} {first : Agenda}
variable {r r' : Run}

/-- The invariant of replays. What is on the agenda suits the result; a module that has no entry yet
is pinned by a task at the front of the agenda; entries choose the modules of the result. -/
structure Replaying (asked : String → History) (modules : List PinnedModule) (r : Run) : Prop where
  suits : ∀ task ∈ r.agenda.tasks, ∃ m ∈ modules, task.Suits (asked m.name) m
  waiting : ∃ pins rest, r.agenda.tasks = pins ++ rest ∧
    (∀ task ∈ pins, ∃ m ∈ modules, task.Pins m) ∧
    ∀ m ∈ modules, (∃ e, r.agenda.find? m.name = some e) ∨ ∃ task ∈ pins, task.Pins m
  settled : ∀ name e, r.agenda.find? name = some e → ∃ m ∈ modules, m.name = name ∧
    e.chosen = some m ∧ e.history.Replays (asked m.name) m

section Step

variable {task : Task} {rest : List Task} {d : Demand} {before : Entry} {m chosen : PinnedModule}
variable {pick : Pick} {fetched : Option ModuleManifest}

/-- The first task pins its module if the module has no entry yet. -/
theorem Taken.pins (hrep : Replayable registry shelf asked modules) (hr : r.Replaying asked modules)
    (h : Taken r task rest d before) (hm : m ∈ modules) (hname : task.requirement.name = m.name)
    (hnone : r.agenda.find? task.requirement.name = none) : d.Pins m := by
  obtain ⟨pins, others, htasks, hpins, hall⟩ := hr.waiting
  rcases hall m hm with ⟨e, he⟩ | ⟨t, ht, _⟩
  · rw [← hname, hnone] at he
    cases he
  · cases pins with
    | nil => cases ht
    | cons head pins =>
      rw [h.first, List.cons_append] at htasks
      obtain ⟨rfl, _⟩ := List.cons.inj htasks
      obtain ⟨m', hm', hname', d', hd', hpinned⟩ := hpins task List.mem_cons_self
      have hsame : m' = m := hrep.unique hm' hm (hname'.symm.trans hname)
      have hdemand : d' = d := Except.ok.inj (hd'.symm.trans h.demand)
      exact hsame ▸ hdemand ▸ hpinned

theorem Taken.replays (hrep : Replayable registry shelf asked modules)
    (hr : r.Replaying asked modules) (h : Taken r task rest d before) :
    ∃ m ∈ modules, task.requirement.name = m.name ∧
      History.Replays (before.history ++ [d]) (asked m.name) m := by
  obtain ⟨m, hm, hname, d', hd', hfits⟩ := hr.suits task (by rw [h.first]; exact List.mem_cons_self)
  have hdemand : d' = d := Except.ok.inj (hd'.symm.trans h.demand)
  subst hdemand
  refine ⟨m, hm, hname, ?_⟩
  rcases h.before_eq with ⟨hfind, rfl⟩ | hfind
  · have hpinned := h.pins hrep hr hm hname hfind
    refine ⟨⟨d', by simp, hpinned⟩, ?_⟩
    intro other hother
    rw [List.mem_singleton.mp hother]
    exact .inl hpinned
  · obtain ⟨m', hm', hname', _, hhistory⟩ := hr.settled _ _ hfind
    obtain rfl := hrep.unique hm' hm (hname'.trans hname)
    obtain ⟨pinning, hmem, hpins⟩ := hhistory.pinned
    refine ⟨⟨pinning, List.mem_append_left _ hmem, hpins⟩, ?_⟩
    intro other hother
    rcases List.mem_append.mp hother with hother | hother
    · exact hhistory.known other hother
    · rw [List.mem_singleton.mp hother]
      exact hfits

theorem Picked.eq_pick {cache after : Cache} {queries queries' : List Query} {history : History}
    {was : Option Pick} (hplain : registry.IsPlain) (hrep : Replayable registry shelf asked modules)
    (hm : m ∈ modules) (hhistory : history.Replays (asked m.name) m)
    (hoffer : registry.Offers m.uri pick)
    (h : Picked (.inMemory registry none shelf now later) cache queries m.uri was history pick after
      queries') : pick = m.pick := by
  obtain ⟨d, hd, hpins⟩ := hhistory.pinned
  have hmem : m.version ∈ history.constraints :=
    (History.mem_constraints _ _).mpr ⟨hrep.version_ne_empty hm, d, hd, hpins.constraint⟩
  exact hrep.eq_pick hplain hm hoffer
    (h.satisfies (registry.honours none) hoffer.immutable m.version hmem)

variable (hplain : registry.IsPlain) (hrep : Replayable registry shelf asked modules)
variable (hapart : Cache.KeysApart (first.places requirements))
variable (hfirst : ∀ name, first.uriOf name = "https://" ++ name)
variable (htame : r.Tame (.inMemory registry none shelf now later) requirements first)
variable (hsourced : r.Sourced registry (first.places requirements) first)
variable (hr : r.Replaying asked modules)
include hplain hrep hapart hfirst htame hsourced hr

theorem Taken.mem_modules {after : Cache} {queries : List Query}
    (h : Taken r task rest d before)
    (hshape : chosen = pick.pinned task.requirement.name (r.agenda.uriOf task.requirement.name))
    (hpicked : Picked (.inMemory registry none shelf now later) r.cache r.queries chosen.uri before.pick
      (before.history ++ [d]) pick after queries) :
    chosen ∈ modules ∧ History.Replays (before.history ++ [d]) (asked chosen.name) chosen := by
  obtain ⟨m, hm, hname, hhistory⟩ := h.replays hrep hr
  have huri : chosen.uri = first.uriOf task.requirement.name := by
    rw [hshape, Agenda.uriOf_congr htame.replacements, Pick.pinned]
  have hhttps : first.uriOf task.requirement.name = "https://" ++ m.name := by rw [hfirst, hname]
  have hremote : Location.isLocal (first.uriOf task.requirement.name) = false := by
    rw [hhttps]
    exact Location.isLocal_https m.name
  rw [huri] at hpicked
  obtain ⟨hoffer, _⟩ := hpicked.offered hplain hapart hremote (h.offered hsourced)
    hsourced.stocked (h.mem_places htame)
  rw [hhttps, ← hrep.located m hm] at hpicked hoffer
  have hpick := hpicked.eq_pick hplain hrep hm hhistory hoffer
  have hsame : chosen = m := by
    rw [hshape, Agenda.uriOf_congr htame.replacements, hhttps, hpick, hname]
    exact hrep.pinned_pick hm
  rw [hsame]
  exact ⟨hm, hhistory⟩

theorem Replaying.no_obstacle : ¬Obstacle (.inMemory registry none shelf now later) r := by
  intro hobstacle
  cases hobstacle with
  | conflict htaken hoff hother =>
    obtain ⟨m, hm, _, hhistory⟩ := htaken.replays hrep hr
    exact hother (hrep.agreed_replay hm hhistory (by simp) hoff)
  | @unpicked task rest d before htaken h =>
    obtain ⟨m, hm, hname, hhistory⟩ := htaken.replays hrep hr
    have hplace := htaken.mem_places htame
    rw [Agenda.uriOf_congr htame.replacements] at h
    cases h with
    | unread hget =>
      obtain ⟨found, hfound, _⟩ := hsourced.stocked.offered _ hplace now
      cases hfound.symm.trans hget
    | unanswered hanswer =>
      obtain ⟨p, hp⟩ := hrep.exists_pick hplain hm hhistory
      rw [hfirst, hname, ← hrep.located m hm] at hanswer
      cases hp.symm.trans hanswer
    | @unwritten pick fault _ hput =>
      obtain ⟨after, hafter⟩ := hsourced.stocked.exists_put
        (first.uriOf task.requirement.name) (History.channel (before.history ++ [d])) pick
      cases hafter.symm.trans hput
  | givenUnserved hwas hgiven _ =>
    have hnew := (hsourced.picked _ _ hwas).1
    simp [hgiven] at hnew
  | pickedUnserved htaken hshape hpicked h =>
    obtain ⟨hm, _⟩ :=
      htaken.mem_modules hplain hrep hapart hfirst htame hsourced hr hshape hpicked
    obtain ⟨manifest, hserved, hdeclared, _⟩ := hrep.served _ hm
    exact h manifest hserved hdeclared

omit hplain hapart hfirst htame hsourced in
/-- What is on the agenda after a step for a module of the result suits the result. -/
theorem Handled.suits {entry : Entry} (hm : m ∈ modules) (htasks : r.agenda.tasks = task :: rest)
    (h : Handled (.inMemory registry none shelf now later) r r' rest m entry fetched) :
    ∀ t ∈ r'.agenda.tasks, ∃ other ∈ modules, t.Suits (asked other.name) other := by
  intro t ht
  rw [h.tasks] at ht
  rcases List.mem_append.mp ht with ht | ht
  · exact hr.suits t (by rw [htasks]; exact List.mem_cons_of_mem _ ht)
  · cases hfetched : fetched with
    | none => simp [hfetched] at ht
    | some manifest =>
      rw [hfetched] at ht
      obtain ⟨manifest', hserved', _, hsuits⟩ := hrep.served m hm
      obtain ⟨_, hserved, _⟩ := h.fresh manifest hfetched
      have hsame : manifest' = manifest := Except.ok.inj (hserved'.symm.trans hserved)
      exact hsuits t (hsame ▸ ht)

omit hplain hrep hapart hfirst htame hsourced in
/-- After a step, a module without an entry is still pinned at the front of the agenda. -/
theorem Handled.waiting {entry : Entry} (htasks : r.agenda.tasks = task :: rest)
    (hname : m.name = task.requirement.name)
    (h : Handled (.inMemory registry none shelf now later) r r' rest m entry fetched) :
    ∃ pins others, r'.agenda.tasks = pins ++ others ∧
      (∀ t ∈ pins, ∃ other ∈ modules, t.Pins other) ∧
      ∀ other ∈ modules, (∃ e, r'.agenda.find? other.name = some e) ∨
        ∃ t ∈ pins, t.Pins other := by
  have hentry : ∀ name, name = m.name ∨ (∃ e, r.agenda.find? name = some e) →
      ∃ e, r'.agenda.find? name = some e := by
    intro name hcase
    rw [h.find]
    by_cases hself : name = m.name
    · exact ⟨entry, if_pos hself⟩
    · rw [if_neg hself]
      exact hcase.resolve_left hself
  obtain ⟨pins, others, hsplit, hpins, hall⟩ := hr.waiting
  cases pins with
  | nil =>
    refine ⟨[], r'.agenda.tasks, rfl, by simp, ?_⟩
    intro other hother
    rcases hall other hother with hknown | ⟨t, ht, _⟩
    · exact .inl (hentry _ (.inr hknown))
    · cases ht
  | cons head pins =>
    rw [htasks, List.cons_append] at hsplit
    obtain ⟨rfl, hrest⟩ := List.cons.inj hsplit
    refine ⟨pins, others ++ fetched.elim [] fun manifest => manifest.tasks m, ?_, ?_, ?_⟩
    · rw [h.tasks, hrest, List.append_assoc]
    · exact fun t ht => hpins t (List.mem_cons_of_mem _ ht)
    · intro other hother
      rcases hall other hother with hknown | ⟨t, ht, htpins⟩
      · exact .inl (hentry _ (.inr hknown))
      · rcases List.mem_cons.mp ht with rfl | ht
        · exact .inl (hentry _ (.inl (htpins.1.symm.trans hname.symm)))
        · exact .inr ⟨t, ht, htpins⟩

theorem PickedStep.replaying
    (h : PickedStep (.inMemory registry none shelf now later) r r' task rest d m before pick fetched) :
    r'.Replaying asked modules := by
  obtain ⟨hm, hhistory⟩ :=
    h.toTaken.mem_modules hplain hrep hapart hfirst htame hsourced hr h.shape h.picked
  refine ⟨h.suits hrep hr hm h.first, h.waiting hr h.first h.own, ?_⟩
  intro name e hfind
  rw [h.find] at hfind
  split at hfind
  · rename_i hname
    cases hfind
    exact ⟨m, hm, hname.symm, rfl, hhistory⟩
  · exact hr.settled name e hfind

theorem replaying_transition (h : Transition (.inMemory registry none shelf now later) r r')
    (hfailure : r'.failure = none) : r'.Replaying asked modules := by
  cases h with
  | lost htasks hbroken =>
    obtain ⟨m, _, _, d, hd, _⟩ := hr.suits _ (by rw [htasks]; exact List.mem_cons_self)
    cases hd.symm.trans hbroken
  | failed hfailed _ => simp [hfailure] at hfailed
  | given h =>
    have hnew := (hsourced.picked _ _ h.was).1
    simp [h.given] at hnew
  | picked h => exact h.replaying hplain hrep hapart hfirst htame hsourced hr

end Step

section Whole

variable {tasks : List Task} {cache : Cache} {start : Run}
variable (hs : (Surroundings.inMemory registry none shelf now later).Steady requirements)
variable (hplain : registry.IsPlain) (hcache : cache.IsEmpty)
variable (hreadable : ∀ q ∈ requirements, q.isReadable = true)
variable (htasks : ∀ task ∈ tasks, task.requirement ∈ requirements)
variable (hapart : Cache.KeysApart ((Agenda.start tasks [] []).places requirements))
variable (hstart : start = { agenda := .start tasks [] [], cache })
include hs hplain hcache htasks hapart hstart

include hreadable in
theorem closed_of_readable (h : Reachable (.inMemory registry none shelf now later) start t r)
    (hfailure : r.failure = none) : r.Closed (.inMemory registry none shelf now later) tasks := by
  refine closed_reachable Nat.one_pos hstart ?_ h hfailure
  rintro q ⟨t, r, task, rest, hr, hactive, hfirst, rfl⟩
  obtain ⟨htame, _⟩ := sourced_reachable hs hplain hcache htasks hapart hstart hr
    (exists_task_of_isActive hactive).1
  exact hreadable _ (htame.first_mem hfirst)

include hreadable in
/-- What a run has chosen for a module is offered in the place that its name stands for. -/
theorem exists_offer_of_mem_resolved
    (h : Reachable (.inMemory registry none shelf now later) start t r)
    (hfailure : r.failure = none) {m : PinnedModule} (hm : m ∈ r.agenda.resolved) :
    ∃ pick, m = pick.pinned m.name ("https://" ++ m.name) ∧
      registry.Offers ("https://" ++ m.name) pick := by
  have hclosed := closed_of_readable hs hplain hcache hreadable htasks hapart hstart h hfailure
  obtain ⟨htame, hsourced⟩ := sourced_reachable hs hplain hcache htasks hapart hstart h hfailure
  obtain ⟨entry, _, hmet⟩ := hclosed.met_of_mem_resolved hm
  obtain ⟨hgiven, hoffers⟩ := hsourced.picked _ _ hmet.find
  obtain ⟨_, pick, hentry, _⟩ := htame.settled _ _ hmet.find hgiven
  rw [Agenda.uriOf_start] at hentry hoffers
  have hchosen : some (pick.pinned m.name ("https://" ++ m.name)) = some m :=
    (congrArg Entry.chosen hentry).symm.trans hmet.chosen
  exact ⟨pick, (Option.some.inj hchosen).symm, hoffers pick (congrArg Entry.pick hentry)⟩

include hreadable in
/-- What was not lost is, in the end, in the history of a module of the result. -/
theorem suits_of_keeps (h : Reachable (.inMemory registry none shelf now later) start t r)
    (hfailure : r.failure = none) (hdone : r.agenda.tasks = []) {task : Task}
    (hkeeps : r.Keeps task) :
    ∃ other ∈ r.agenda.resolved, task.Suits (r.agenda.history other.name) other := by
  have hclosed := closed_of_readable hs hplain hcache hreadable htasks hapart hstart h hfailure
  obtain ⟨_, hsourced⟩ := sourced_reachable hs hplain hcache htasks hapart hstart h hfailure
  have hnoted := hkeeps.noted hdone
  obtain ⟨entry, other, _, hother⟩ := hclosed.met _ hnoted.1
  obtain ⟨d, hd, hdemand⟩ := hnoted.includes hother.find (hsourced.picked _ _ hother.find).1
  refine ⟨other, ?_, hother.own.symm, d, hdemand, .inr ?_⟩
  · refine List.mem_filterMap.mpr ⟨_, hnoted.1, ?_⟩
    rw [hother.find, Option.bind_some, hother.chosen]
  · rw [hother.own, r.agenda.history_of_find? _ hother.find]
    exact hd

include hreadable in
/-- The result of a run on a plain registry and an empty cache can be replayed. -/
theorem replayable_resolved (h : Reachable (.inMemory registry none shelf now later) start t r)
    (hfailure : r.failure = none) (hdone : r.agenda.tasks = []) :
    Replayable registry shelf r.agenda.history r.agenda.resolved := by
  have hclosed := closed_of_readable hs hplain hcache hreadable htasks hapart hstart h hfailure
  have hhonest := honest_reachable (registry.honours none) hstart h hfailure
  obtain ⟨_, hsourced⟩ := sourced_reachable hs hplain hcache htasks hapart hstart h hfailure
  have hoffer : ∀ m ∈ r.agenda.resolved, ∃ pick, m = pick.pinned m.name ("https://" ++ m.name) ∧
      registry.Offers ("https://" ++ m.name) pick := fun m hm =>
    exists_offer_of_mem_resolved hs hplain hcache hreadable htasks hapart hstart h hfailure hm
  refine
    { nodup := by
        rw [hclosed.map_name_resolved]
        exact hclosed.nodup
      located := ?_
      offered := ?_
      served := ?_
      satisfied := ?_
      agreed := ?_ }
  · intro m hm
    obtain ⟨pick, hpinned, _⟩ := hoffer m hm
    exact congrArg PinnedModule.uri hpinned
  · intro m hm
    obtain ⟨pick, hpinned, hoffered⟩ := hoffer m hm
    rw [hpinned]
    exact hoffered
  · intro m hm
    obtain ⟨_, manifest, hmet⟩ := hclosed.met_of_mem_resolved hm
    obtain ⟨_, hserved⟩ := hmet.served
    refine ⟨manifest, hserved, hmet.declared, ?_⟩
    intro task htask
    exact suits_of_keeps hs hplain hcache hreadable htasks hapart hstart h hfailure hdone
      (hmet.keeps task htask)
  · intro m hm
    obtain ⟨pick, hpinned, hoffered⟩ := hoffer m hm
    obtain ⟨entry, _, hmet⟩ := hclosed.met_of_mem_resolved hm
    rw [r.agenda.history_of_find? m.name hmet.find]
    apply (hhonest _ _ hmet.find (hsourced.picked _ _ hmet.find).1).satisfied m hmet.chosen
    rw [hpinned]
    exact hoffered.immutable
  · intro m hm
    obtain ⟨entry, _, hmet⟩ := hclosed.met_of_mem_resolved hm
    rw [r.agenda.history_of_find? m.name hmet.find]
    exact (hhonest _ _ hmet.find (hsourced.picked _ _ hmet.find).1).agreed

theorem named_of_mem_resolved (h : Reachable (.inMemory registry none shelf now later) start t r)
    (hfailure : r.failure = none) {m : PinnedModule} (hm : m ∈ r.agenda.resolved) :
    ∃ q ∈ requirements, q.name = m.name := by
  obtain ⟨htame, hsourced⟩ := sourced_reachable hs hplain hcache htasks hapart hstart h hfailure
  obtain ⟨name, _, hchosen⟩ := List.mem_filterMap.mp hm
  obtain ⟨e, hfind, hchosen⟩ := Option.bind_eq_some_iff.mp hchosen
  obtain ⟨_, _, hshape, hsettled⟩ := htame.settled name e hfind (hsourced.picked name e hfind).1
  rw [hshape, settledEntry, Option.some.injEq] at hchosen
  rw [← hchosen]
  exact hsettled.named

variable (hrep : Replayable registry shelf asked modules)
variable (hpins : ∀ task ∈ tasks, ∃ m ∈ modules, task.Pins m)
variable (hall : ∀ m ∈ modules, ∃ task ∈ tasks, task.Pins m)
include hrep hpins hall

/-- A replay does not fail. -/
theorem replaying_reachable (h : Reachable (.inMemory registry none shelf now later) start t r) :
    r.failure = none ∧ r.Replaying asked modules := by
  subst hstart
  let first := Agenda.start tasks [] []
  have hbegin : Replaying asked modules { agenda := first, cache } := by
    refine ⟨?_, ⟨tasks, [], by simp [first, Agenda.start], hpins,
      fun m hm => .inr (hall m hm)⟩, ?_⟩
    · intro task htask
      obtain ⟨m, hm, hname, d, hd, hpinned⟩ := hpins task htask
      exact ⟨m, hm, hname, d, hd, .inl hpinned⟩
    · intro name e hfind
      obtain ⟨_, hm, _⟩ := Agenda.find?_start name tasks [] [] .top e hfind
      cases hm
  have hinvariant : r.failure = none ∧
      r.Tame (.inMemory registry none shelf now later) requirements first ∧
      r.Sourced registry (first.places requirements) first ∧ r.Replaying asked modules := by
    refine invariant_of_no_obstacle
      (P := fun r => r.Tame (.inMemory registry none shelf now later) requirements first ∧
        r.Sourced registry (first.places requirements) first ∧ r.Replaying asked modules)
      (isSound_start tasks [] [] .top) rfl
      ⟨tame_start [] [] .top cache 1 htasks, sourced_start tasks 1 hcache _, hbegin⟩ ?_ ?_ h
    · rintro time times r ⟨htame, hsourced, hr⟩
      have hnow : r.Tame (.inMemory registry none shelf time times) requirements first :=
        htame.of_manifests rfl
      exact hr.no_obstacle hplain hrep hapart (Agenda.uriOf_start tasks []) hnow hsourced
    · rintro time times r r' ⟨htame, hsourced, hr⟩ htransition hnone
      have hnow := htame.of_manifests (t := .inMemory registry none shelf time times) rfl
      exact ⟨tame_transition_withClock hs time times hapart htame htransition hnone,
        sourced_transition hplain hapart (Agenda.isLocal_uriOf_start tasks []) hnow hsourced
          htransition hnone,
        replaying_transition hplain hrep hapart (Agenda.uriOf_start tasks []) hnow hsourced hr
          htransition hnone⟩
  exact ⟨hinvariant.1, hinvariant.2.2.2⟩

include hreadable in
/-- A replay that has come to its end has the modules of the result, with the same manifests. -/
theorem replay_ended (h : Reachable (.inMemory registry none shelf now later) start t r)
    (hidle : r.isActive = false) :
    r.agenda.resolved.Perm modules ∧ ∀ entry ∈ r.manifests.entries, ∃ m ∈ modules,
      m.name = entry.1 ∧ shelf.manifest m.uri m.version = .ok entry.2 := by
  obtain ⟨hfailure, hr⟩ := replaying_reachable hs hplain hcache htasks hapart hstart hrep hpins hall h
  have hclosed := closed_of_readable hs hplain hcache hreadable htasks hapart hstart h hfailure
  have hdone := tasks_eq_nil_of_idle hidle hfailure hclosed.workers
  have hchosen : ∀ {name : String} {entry : Entry} {m : PinnedModule},
      r.agenda.find? name = some entry → entry.chosen = some m → m ∈ modules := by
    intro name entry m hfind hchosen
    obtain ⟨m', hm', _, hchosen', _⟩ := hr.settled name entry hfind
    exact Option.some.inj (hchosen'.symm.trans hchosen) ▸ hm'
  have hnodup : (r.agenda.resolved.map PinnedModule.name).Nodup := by
    rw [hclosed.map_name_resolved]
    exact hclosed.nodup
  constructor
  · apply (List.perm_ext_iff_of_nodup (.of_map _ hnodup) (.of_map _ hrep.nodup)).mpr
    intro m
    constructor
    · intro hm
      obtain ⟨_, _, hmet⟩ := hclosed.met_of_mem_resolved hm
      exact hchosen hmet.find hmet.chosen
    · intro hm
      -- A first request pins the module, and nothing waits any more, so its name was met.
      obtain ⟨task, htask, hname, _⟩ := hall m hm
      have hmem := ((hclosed.wanted task htask).noted hdone).1
      rw [hname] at hmem
      obtain ⟨entry, m', _, hmet⟩ := hclosed.met m.name hmem
      have hsame : m' = m := hrep.unique (hchosen hmet.find hmet.chosen) hm hmet.own
      refine List.mem_filterMap.mpr ⟨m.name, hmem, ?_⟩
      rw [hmet.find, Option.bind_some, hmet.chosen, hsame]
  · rintro ⟨name, manifest⟩ hentry
    have hkept : r.manifests.names.Nodup := by
      refine nodup_manifests_reachable ?_ ?_ h hfailure
      · rw [hstart]
        exact isSound_start tasks [] [] .top
      · rw [hstart]
        exact List.nodup_nil
    have hget := Ledger.get?_of_mem_entries hkept hentry
    obtain ⟨entry, m, manifest', hmet⟩ := hclosed.met name (hclosed.recorded name manifest hget)
    obtain ⟨_, hserved⟩ := hmet.served
    have hsame : manifest' = manifest := Option.some.inj (hmet.recorded.symm.trans hget)
    exact ⟨m, hchosen hmet.find hmet.chosen, hmet.own, hsame ▸ hserved⟩

include hreadable in
theorem replay_returns : ∃ limit ended,
    finish? (.inMemory registry none shelf now later) limit start = some ended ∧
      ended.outcome = .ok ended.agenda.resolved ∧
      ended.agenda.resolved.Perm modules ∧ ∀ entry ∈ ended.manifests.entries, ∃ m ∈ modules,
        m.name = entry.1 ∧ shelf.manifest m.uri m.version = .ok entry.2 := by
  obtain ⟨limit, ended, hended⟩ : ∃ limit ended,
      finish? (.inMemory registry none shelf now later) limit start = some ended := by
    rw [hstart]
    exact ⟨_, ends_of_steady hs htasks hapart⟩
  obtain ⟨⟨_, hreach⟩, hidle⟩ := reachable_of_finish? hended
  obtain ⟨hfailure, _⟩ :=
    replaying_reachable hs hplain hcache htasks hapart hstart hrep hpins hall hreach
  refine ⟨limit, ended, hended, by rw [outcome, hfailure], ?_⟩
  exact replay_ended hs hplain hcache hreadable htasks hapart hstart hrep hpins hall hreach hidle

end Whole

end Run

end ModulePins
