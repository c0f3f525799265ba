import ModulePins.Proofs.Resolution.Ending
import ModulePins.Proofs.Resolution.Part

/-!
# Divided runs

The names that come up in a run may fall into two groups, such that the modules of one group never
ask for those of the other, and picks for the groups are kept under different keys. The part of the
run that concerns one group is then a run of its own: it takes the steps of the run for this group,
and stands still while the run deals with the other one.
-/

namespace ModulePins

namespace Agenda

/-- Where the manifests of a module are fetched. Given modules bring their own location. -/
def placeOf (a : Agenda) (name : String) : String :=
  ((a.find? name).bind Entry.chosen).elim (a.uriOf name) PinnedModule.uri

/-- Where the picks that a requirement asks for are looked up: nowhere for a given module. -/
def lookups (a : Agenda) (q : Requirement) : List (String × String) :=
  if (a.find? q.name).isSome then [] else a.places [q]

theorem uri_of_mem_lookups {a : Agenda} {q : Requirement} {place : String × String}
    (h : place ∈ a.lookups q) : place.1 = a.placeOf q.name := by
  unfold lookups at h
  split at h
  · cases h
  · rename_i hnone
    have hplace : a.placeOf q.name = a.uriOf q.name := by
      simp [placeOf, Option.not_isSome_iff_eq_none.mp hnone]
    rw [hplace]
    simp only [places, List.flatMap_singleton, List.mem_cons, List.not_mem_nil, or_false] at h
    rcases h with rfl | rfl
    · rfl
    · rfl

end Agenda

namespace Run

variable {s : Surroundings} {r r' t start : Run} {p : String → Bool} {keys : String → Prop}
variable {serve : Fetch → Except Failure ModuleManifest}

section Divided

variable {first : Agenda} {all : Requirement → Prop}
variable {task : Task} {rest : List Task} {d : Demand} {before : Entry} {m : PinnedModule}

/-- Requirements that fall into two groups by their names. What the manifests of a module list
belongs to the group of the module, and the groups have keys of their own in the cache. -/
structure Divided (serve : Fetch → Except Failure ModuleManifest) (first : Agenda)
    (p : String → Bool) (all : Requirement → Prop) : Prop where
  listed : ∀ q, all q → ∀ version manifest,
    serve { uri := first.placeOf q.name, version } = .ok manifest → manifest.name = q.name →
      ∀ other ∈ manifest.modules, all other ∧ p other.name = p q.name
  readable : ∀ q, all q → q.isReadable = true
  apart : ∀ q other, all q → all other → p q.name = true → p other.name = false →
    ∀ place ∈ first.lookups q, ∀ place' ∈ first.lookups other,
      cacheKey place.1 place.2 ≠ cacheKey place'.1 place'.2

theorem Divided.symm (h : Divided serve first p all) :
    Divided serve first (fun name => !p name) all where
  listed := by
    intro q hq version manifest hserved hname other hother
    obtain ⟨hall, hsame⟩ := h.listed q hq version manifest hserved hname other hother
    exact ⟨hall, by rw [hsame]⟩
  readable := h.readable
  apart := by
    intro q other hq hother hp hp' place hplace place' hplace'
    have hne := h.apart other q hother hq (by simpa using hp') (by simpa using hp) place' hplace'
      place hplace
    exact hne.symm

/-- The keys under which picks for one group are looked up. -/
def KeyOf (first : Agenda) (all : Requirement → Prop) (p : String → Bool) (key : String) : Prop :=
  ∃ q, all q ∧ p q.name = true ∧ ∃ place ∈ first.lookups q, cacheKey place.1 place.2 = key

/-- The invariant of a run with `first` for its agenda at the start, in which only some requirements
come up. -/
structure Within (first : Agenda) (all : Requirement → Prop) (r : Run) : Prop where
  sound : r.agenda.IsSound
  replacements : r.agenda.replacements = first.replacements
  workers : 0 < r.workers
  tasks : ∀ task ∈ r.agenda.tasks, all task.requirement
  wished : ∀ name e, r.agenda.find? name = some e → e.given = false → ∀ d ∈ e.history,
    ∃ q, all q ∧ q.name = name ∧ q.wish? = some d.wish
  placed : ∀ name e m, r.agenda.find? name = some e → e.given = true → e.chosen = some m →
    m.uri = first.placeOf name
  met : ∀ name, ((r.agenda.find? name).getD {}).given = false → first.find? name = none

theorem within_start {tasks : List Task} {replacements : List (String × String)}
    {given : List PinnedModule} {base : Path} {cache : Cache} {workers : Nat}
    (hworkers : 0 < workers) (htasks : ∀ task ∈ tasks, all task.requirement) :
    Within (.start tasks replacements given base) all
      { agenda := .start tasks replacements given base, cache, workers } where
  sound := isSound_start tasks replacements given base
  replacements := rfl
  workers := hworkers
  tasks := htasks
  wished := by
    intro name e hfind hgiven
    obtain ⟨_, _, _, rfl⟩ := Agenda.find?_start name tasks replacements given base e hfind
    cases hgiven
  placed := by
    intro name e m hfind _ hchosen
    simp [Agenda.placeOf, hfind, hchosen]
  met := by
    intro name hgiven
    cases hfind : (Agenda.start tasks replacements given base).find? name with
    | none => rfl
    | some e =>
      obtain ⟨_, _, _, rfl⟩ := Agenda.find?_start name tasks replacements given base e hfind
      simp [hfind, Entry.ofGiven] at hgiven

theorem Within.first_mem (hr : r.Within first all) (h : r.agenda.tasks = task :: rest) :
    all task.requirement :=
  hr.tasks task (h ▸ List.mem_cons_self)

theorem Within.find?_first (hr : r.Within first all) (h : Taken r task rest d before) :
    first.find? task.requirement.name = none :=
  hr.met _ (h.was ▸ h.notGiven)

theorem Within.placeOf_eq (hr : r.Within first all) (h : Taken r task rest d before) :
    r.agenda.uriOf task.requirement.name = first.placeOf task.requirement.name := by
  rw [Agenda.placeOf, hr.find?_first h, Agenda.uriOf_congr hr.replacements]
  rfl

theorem Within.mem_lookups (hr : r.Within first all) (h : Taken r task rest d before) :
    ∃ q, all q ∧ q.name = task.requirement.name ∧
      (r.agenda.uriOf task.requirement.name, History.channel (before.history ++ [d])) ∈
        first.lookups q := by
  have hlookups : ∀ q : Requirement, q.name = task.requirement.name →
      first.lookups q = first.places [q] := by
    intro q hname
    rw [Agenda.lookups, hname, hr.find?_first h]
    rfl
  have hwished : ∀ asked ∈ before.history ++ [d],
      ∃ q, all q ∧ q.name = task.requirement.name ∧ q.wish? = some asked.wish := by
    intro asked hasked
    rcases List.mem_append.mp hasked with hasked | hasked
    · rcases h.before_eq with ⟨_, rfl⟩ | hfind
      · cases hasked
      · exact hr.wished _ before hfind h.notGiven asked hasked
    · rw [List.mem_singleton.mp hasked]
      exact ⟨task.requirement, hr.first_mem h.first, rfl, wish?_of_demand h.demand⟩
  rw [Agenda.uriOf_congr hr.replacements]
  rcases History.channel_eq_or_mem (before.history ++ [d]) with hchannel | ⟨asked, hasked, hchannel⟩
  · refine ⟨task.requirement, hr.first_mem h.first, rfl, ?_⟩
    rw [hlookups _ rfl, hchannel]
    simp [Agenda.places]
  · obtain ⟨q, hq, hname, hwish⟩ := hwished asked hasked
    refine ⟨q, hq, hname, ?_⟩
    rw [hlookups q hname, ← hchannel]
    simp [Agenda.places, hname, hwish, Demand.wish]

theorem Within.keyOf (hr : r.Within first all) (h : Taken r task rest d before)
    (hp : p task.requirement.name = true) :
    KeyOf first all p (cacheKey (r.agenda.uriOf task.requirement.name)
      (History.channel (before.history ++ [d]))) := by
  obtain ⟨q, hq, hname, hplace⟩ := hr.mem_lookups h
  exact ⟨q, hq, hname ▸ hp, _, hplace, rfl⟩

theorem Within.not_keyOf (hr : r.Within first all) (hdivided : Divided serve first p all)
    (h : Taken r task rest d before) (hp : p task.requirement.name = false) :
    ¬KeyOf first all p (cacheKey (r.agenda.uriOf task.requirement.name)
      (History.channel (before.history ++ [d]))) := by
  rintro ⟨q, hq, hpq, place, hplace, hkey⟩
  obtain ⟨other, hother, hname, hplace'⟩ := hr.mem_lookups h
  exact hdivided.apart q other hq hother hpq (hname ▸ hp) place hplace _ hplace' hkey

theorem Divided.of_fetch (h : Divided serve first p all) (hall : all task.requirement)
    (hname : m.name = task.requirement.name) (hplace : m.uri = first.placeOf task.requirement.name)
    {manifest : ModuleManifest} (hserved : serve m.fetch = .ok manifest)
    (hown : manifest.name = m.name) :
    ∀ q ∈ manifest.modules, all q ∧ p q.name = p task.requirement.name := by
  refine h.listed task.requirement hall m.version manifest ?_ (hown.trans hname)
  rw [← hplace]
  exact hserved

section Step

variable {fetched : Option ModuleManifest} {entry : Entry} {pick : Pick}

theorem Handled.mem_all (hserve : s.Serves serve) (hdivided : Divided serve first p all)
    (hr : r.Within first all) (hfirst : r.agenda.tasks = task :: rest)
    (hname : m.name = task.requirement.name) (hplace : m.uri = first.placeOf task.requirement.name)
    (h : Handled s r r' rest m entry fetched) :
    (∀ t ∈ r'.agenda.tasks, all t.requirement) ∧
      ∀ t ∈ fetched.elim [] fun manifest => manifest.tasks m,
        p t.requirement.name = p task.requirement.name := by
  have hall := hr.first_mem hfirst
  have hlisted : ∀ t ∈ fetched.elim [] fun manifest => manifest.tasks m,
      all t.requirement ∧ p t.requirement.name = p task.requirement.name := by
    intro t ht
    cases hfetched : fetched with
    | none => simp [hfetched] at ht
    | some manifest =>
      rw [hfetched] at ht
      obtain ⟨q, hq, rfl⟩ := List.mem_map.mp ht
      obtain ⟨_, hserved, hown⟩ := h.fresh manifest hfetched
      rw [hserve] at hserved
      exact hdivided.of_fetch hall hname hplace hserved hown q hq
  refine ⟨fun t ht => ?_, fun t ht => (hlisted t ht).2⟩
  rw [h.tasks] at ht
  rcases List.mem_append.mp ht with ht | ht
  · exact hr.tasks t (hfirst ▸ List.mem_cons_of_mem _ ht)
  · exact (hlisted t ht).1

theorem GivenStep.place (hr : r.Within first all)
    (h : GivenStep s r r' task rest d m before fetched) :
    m.uri = first.placeOf task.requirement.name :=
  h.name ▸ hr.placed m.name before m h.was h.given h.chosen

theorem PickedStep.place (hr : r.Within first all)
    (h : PickedStep s r r' task rest d m before pick fetched) :
    m.uri = first.placeOf task.requirement.name := by
  rw [h.shape, ← hr.placeOf_eq h.toTaken]
  rfl

theorem GivenStep.within (hserve : s.Serves serve) (hdivided : Divided serve first p all)
    (hr : r.Within first all) (hsound : r'.agenda.IsSound)
    (h : GivenStep s r r' task rest d m before fetched) : r'.Within first all where
  sound := hsound
  replacements := h.replacements.trans hr.replacements
  workers := h.workers ▸ hr.workers
  tasks := (h.mem_all hserve hdivided hr h.first h.name (h.place hr)).1
  wished := by
    intro name e hfind hgiven
    rw [h.find] at hfind
    split at hfind
    · cases hfind
      simp [h.given] at hgiven
    · exact hr.wished name e hfind hgiven
  placed := by
    intro name e own hfind hgiven hchosen
    rw [h.find] at hfind
    split at hfind
    · rename_i hname
      cases hfind
      rw [hname]
      exact hr.placed m.name before own h.was h.given hchosen
    · exact hr.placed name e own hfind hgiven hchosen
  met := by
    intro name hgiven
    rw [h.find] at hgiven
    split at hgiven
    · simp [h.given] at hgiven
    · exact hr.met name hgiven

theorem PickedStep.within (hserve : s.Serves serve) (hdivided : Divided serve first p all)
    (hr : r.Within first all) (hsound : r'.agenda.IsSound)
    (h : PickedStep s r r' task rest d m before pick fetched) : r'.Within first all where
  sound := hsound
  replacements := h.replacements.trans hr.replacements
  workers := h.workers ▸ hr.workers
  tasks := (h.mem_all hserve hdivided hr h.first h.own (h.place hr)).1
  wished := by
    intro name e hfind hgiven asked hasked
    rw [h.find] at hfind
    split at hfind
    · rename_i hname
      cases hfind
      rw [hname, h.own]
      rcases List.mem_append.mp hasked with hasked | hasked
      · rcases h.toTaken.before_eq with ⟨_, rfl⟩ | hwas
        · cases hasked
        · exact hr.wished _ before hwas h.notGiven asked hasked
      · rw [List.mem_singleton.mp hasked]
        exact ⟨task.requirement, hr.first_mem h.first, rfl, wish?_of_demand h.demand⟩
    · exact hr.wished name e hfind hgiven asked hasked
  placed := by
    intro name e own hfind hgiven hchosen
    rw [h.find] at hfind
    split at hfind
    · cases hfind
      cases hgiven
    · exact hr.placed name e own hfind hgiven hchosen
  met := by
    intro name hgiven
    rw [h.find] at hgiven
    split at hgiven
    · rename_i hname
      rw [hname, h.own]
      exact hr.find?_first h.toTaken
    · exact hr.met name hgiven

end Step

theorem within_transition (hserve : s.Serves serve) (hdivided : Divided serve first p all)
    (hr : r.Within first all) (h : Transition s r r') (hnone : r'.failure = none) :
    r'.Within first all := by
  have hsound := isSound_transition hr.sound h hnone
  cases h with
  | lost htasks hbroken =>
    obtain ⟨_, hdemand⟩ := Agenda.demand_ok (hdivided.readable _ (hr.first_mem htasks))
    simp [hdemand] at hbroken
  | failed hfailed _ => simp [hnone] at hfailed
  | given h => exact h.within hserve hdivided hr hsound
  | picked h => exact h.within hserve hdivided hr hsound

theorem Part.isActive (h : Part p keys r t) (hactive : r.isActive = true)
    (hfirst : r.agenda.tasks = task :: rest) (hp : p task.requirement.name = true) :
    t.isActive = true := by
  have htasks : t.agenda.tasks ≠ [] := by simp [h.agenda.tasks, hfirst, hp]
  simp only [Run.isActive, h.failure, h.workers, Bool.and_eq_true] at hactive ⊢
  exact ⟨hactive.1, by simpa using htasks⟩

theorem Part.noting (h : Part p keys r t) (task : Task) (rest : List Task) (d : Demand)
    (hp : p task.requirement.name = true) :
    Part p keys (r.noting task rest d)
      (t.noting task (rest.filter fun task => p task.requirement.name) d) :=
  { h with
    agenda := ((h.agenda.rest rest).meet hp).update hp fun e =>
      { e with history := e.history ++ [d] } }

theorem Part.taken (hserve : s.Serves serve) (hstateless : s.versions.Stateless)
    (hdivided : Divided serve first p all) (hr : r.Within first all)
    (h : Part p (KeyOf first all p) r t) (htaken : Taken r task rest d before)
    (hp : p task.requirement.name = true) :
    Part p (KeyOf first all p) (step s r) (step s t) := by
  have htaken' : Taken t task (rest.filter fun task => p task.requirement.name) d before :=
    { htaken with
      first := by simp [h.agenda.tasks, htaken.first, hp]
      was := by rw [h.agenda.find _ hp, htaken.was] }
  have hitem : t.itemOf task d = r.itemOf task d := by rw [itemOf, itemOf, h.agenda.uriOf]
  have huri : (r.itemOf task d).uri = some (r.agenda.uriOf task.requirement.name) := rfl
  have hchoose : PartWith p (KeyOf first all p)
      (Run.choosePick s (r.noting task rest d) (r.itemOf task d)
        (r.agenda.uriOf task.requirement.name))
      (Run.choosePick s (t.noting task (rest.filter fun task => p task.requirement.name) d)
        (r.itemOf task d) (r.agenda.uriOf task.requirement.name)) := by
    refine (h.noting task rest d hp).choosePick hstateless hp fun _ => ?_
    rw [show (r.itemOf task d).name = task.requirement.name from rfl, htaken.history_noting]
    exact hr.keyOf htaken hp
  rw [step_of_taken htaken, step_of_taken htaken', hitem]
  cases hown : Run.choosePick s (r.noting task rest d) (r.itemOf task d)
      (r.agenda.uriOf task.requirement.name) with
  | mk after outcome =>
    cases hpart : Run.choosePick s (t.noting task (rest.filter fun task => p task.requirement.name) d)
        (r.itemOf task d) (r.agenda.uriOf task.requirement.name) with
    | mk after' outcome' =>
      rw [hown, hpart] at hchoose
      obtain ⟨hafter, rfl⟩ := hchoose
      cases outcome' with
      | error failure =>
        rw [process_of_error huri hown, process_of_error huri hpart]
        exact { hafter with failure := rfl }
      | ok pick =>
        rw [process_of_choosePick huri hown, process_of_choosePick huri hpart]
        refine Part.expand hserve (hafter.withChosen hp pick) hp ?_
        intro manifest hserved hdeclared q hq
        have hplace := hr.placeOf_eq htaken
        rw [(hdivided.of_fetch (hr.first_mem htaken.first) rfl hplace hserved hdeclared q hq).2, hp]

theorem Part.next (hserve : s.Serves serve) (hstateless : s.versions.Stateless)
    (hdivided : Divided serve first p all) (hr : r.Within first all)
    (h : Part p (KeyOf first all p) r t) (hactive : r.isActive = true)
    (hfirst : r.agenda.tasks = task :: rest) (hp : p task.requirement.name = true) :
    Part p (KeyOf first all p) (step s r) (step s t) := by
  have htasks : t.agenda.tasks =
      task :: rest.filter fun task => p task.requirement.name := by
    simp [h.agenda.tasks, hfirst, hp]
  obtain ⟨task', rest', hfirst', ⟨fault, hbroken⟩ | ⟨d, entry, m, hdemand, hfind, hgiven, hchosen,
    hname⟩ | ⟨d, before, htaken⟩⟩ := first_cases hr.sound hactive
  · obtain ⟨rfl, rfl⟩ := List.cons.inj (hfirst.symm.trans hfirst')
    rw [step_of_lost hfirst hbroken, step_of_lost htasks hbroken]
    exact { h with agenda := h.agenda.rest rest, workers := by rw [h.workers] }
  · obtain ⟨rfl, rfl⟩ := List.cons.inj (hfirst.symm.trans hfirst')
    have hown : p m.name = true := hname ▸ hp
    have hfind' : t.agenda.find? m.name = some entry := (h.agenda.find m.name hown).trans hfind
    have hplace : m.uri = first.placeOf task.requirement.name :=
      hname ▸ hr.placed m.name entry m hfind hgiven hchosen
    rw [step_of_given hfirst hdemand hfind hgiven hchosen hname,
      step_of_given htasks hdemand hfind' hgiven hchosen hname]
    refine Part.expand hserve { h with agenda := (h.agenda.rest rest).meet hown } hown ?_
    intro manifest hserved hdeclared q hq
    rw [(hdivided.of_fetch (hr.first_mem hfirst) hname hplace hserved hdeclared q hq).2, hp]
  · obtain ⟨rfl, rfl⟩ := List.cons.inj (hfirst.symm.trans htaken.first)
    exact h.taken hserve hstateless hdivided hr htaken hp

section Skip

variable {fetched : Option ModuleManifest} {entry : Entry}

/-- The agenda of the part stays as it is when a module of the other group is dealt with. -/
theorem Handled.part (hfirst : r.agenda.tasks = task :: rest) (hp : p task.requirement.name = false)
    (hname : m.name = task.requirement.name) (h : Handled s r r' rest m entry fetched)
    (hmore : ∀ t ∈ fetched.elim [] fun manifest => manifest.tasks m,
      p t.requirement.name = p task.requirement.name)
    {a : Agenda} (ha : r.agenda.Part p a) : r'.agenda.Part p a where
  tasks := by
    have hnone : (fetched.elim [] fun manifest => manifest.tasks m).filter
        (fun task => p task.requirement.name) = [] := by
      rw [List.filter_eq_nil_iff]
      intro t ht
      simp [hmore t ht, hp]
    rw [ha.tasks, h.tasks, List.filter_append, hnone, hfirst]
    simp [hp]
  order := by
    rw [ha.order, h.order, Agenda.filter_order_meet]
    rw [hname, hp]
  find := by
    intro name hn
    have hne : name ≠ m.name := by
      rintro rfl
      simp [hname, hp] at hn
    rw [ha.find name hn, h.find, if_neg hne]
  replacements := by rw [ha.replacements, h.replacements]

theorem Part.skip (hserve : s.Serves serve) (hdivided : Divided serve first p all)
    (hr : r.Within first all) (h : Part p (KeyOf first all p) r t) (hnone : r.failure = none)
    (hfirst : r.agenda.tasks = task :: rest) (hp : p task.requirement.name = false)
    (htransition : Transition s r r') (hnone' : r'.failure = none) :
    Part p (KeyOf first all p) r' t := by
  have hfailure : t.failure = r'.failure := by rw [h.failure, hnone, hnone']
  cases htransition with
  | lost htasks hbroken =>
    obtain ⟨_, hdemand⟩ := Agenda.demand_ok (hdivided.readable _ (hr.first_mem htasks))
    simp [hdemand] at hbroken
  | failed hfailed _ => simp [hnone'] at hfailed
  | given hgiven =>
    obtain ⟨rfl, rfl⟩ := List.cons.inj (hfirst.symm.trans hgiven.first)
    have hmore := (hgiven.mem_all hserve hdivided hr hfirst hgiven.name (hgiven.place hr)).2
    exact
      { agenda := hgiven.part hfirst hp hgiven.name hmore h.agenda
        workers := by rw [h.workers, hgiven.workers]
        failure := hfailure
        cache := by
          rw [hgiven.cache]
          exact h.cache }
  | @picked _ _ _ _ m _ _ _ hpicked =>
    obtain ⟨rfl, rfl⟩ := List.cons.inj (hfirst.symm.trans hpicked.first)
    have hmore := (hpicked.mem_all hserve hdivided hr hfirst hpicked.own (hpicked.place hr)).2
    refine
      { agenda := hpicked.part hfirst hp hpicked.own hmore h.agenda
        workers := by rw [h.workers, hpicked.workers]
        failure := hfailure
        cache := ?_ }
    rcases hpicked.picked.unchanged_or_asked with hsame | ⟨_, hput⟩
    · rw [hsame]
      exact h.cache
    · have hkey := hr.not_keyOf hdivided hpicked.toTaken hp
      have huri : m.uri = r.agenda.uriOf task.requirement.name :=
        congrArg PinnedModule.uri hpicked.shape
      rw [← huri] at hkey
      exact h.cache.put_other hkey hput

end Skip

end Divided

end Run

end ModulePins
