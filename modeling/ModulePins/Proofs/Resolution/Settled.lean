import ModulePins.Proofs.Location
import ModulePins.Proofs.Resolution.Unaided

/-!
# Settled modules stay settled

A given module stays as it was given, a module in a local folder has the local version, and a
mutable pick is kept: no turn changes any of this, be it the one in which the run fails.
-/

namespace ModulePins

namespace Ledger

theorem get?_ofList_map {α β : Type} (f : α → β) (entries : List (String × α)) (name : String) :
    (ofList (entries.map fun (k, a) => (k, f a))).get? name =
      ((ofList entries).get? name).map f := by
  rw [get?_ofList, get?_ofList, ← List.map_reverse]
  induction entries.reverse with
  | nil => rfl
  | cons head rest ih =>
    obtain ⟨k, a⟩ := head
    by_cases hname : name = k
    · simp [hname]
    · have hkey : (name == k) = false := by simpa using hname
      simp [List.lookup_cons, hkey, ih]

end Ledger

theorem Agenda.uriOf_start_replaced (tasks : List Task) (replacements : List (String × String))
    (given : List PinnedModule) (base : Path) (name : String) :
    (start tasks replacements given base).uriOf name =
      (((Ledger.ofList replacements).get? name).map fun uri => Location.fetchUri uri base).getD
        ("https://" ++ name) := by
  rw [uriOf, start, Ledger.get?_ofList_map fun uri => Location.fetchUri uri base]

namespace Run

variable {s t u : Surroundings} {r r' start : Run} {base : Path}

section Reachable

variable {tasks : List Task} {replacements : List (String × String)} {given : List PinnedModule}
variable {cache : Cache} {workers : Nat} {name : String}

/-- A given module is as it was given. -/
def Untouched (r : Run) (m : PinnedModule) : Prop :=
  ∃ e, r.agenda.find? m.name = some e ∧ e.given = true ∧ e.chosen = some m ∧ e.history = []

theorem Untouched.turn {m : PinnedModule} (hr : r.Untouched m) (h : Turn s r r') :
    r'.Untouched m := by
  obtain ⟨e, hfind, hgiven, hchosen, hhistory⟩ := hr
  rcases h.find?_cases m.name with hsame | ⟨old, _, hold, _, _, hfind'⟩ | ⟨_, _, _, _, htaken, hname,
    _⟩
  · exact ⟨e, hsame.trans hfind, hgiven, hchosen, hhistory⟩
  · rw [hfind, Option.some.injEq] at hold
    subst hold
    exact ⟨_, hfind', hgiven, hchosen, hhistory⟩
  · rw [← hname] at hfind
    simp [htaken.not_given hfind] at hgiven

/-- A module that was chosen without being given is settled on a pick for its repository. -/
def ChosenSettled (r : Run) : Prop :=
  ∀ name e m, r.agenda.find? name = some e → e.given = false → e.chosen = some m →
    ∃ history pick, e = settledEntry history pick m ∧ m = pick.pinned name (r.agenda.uriOf name)

theorem chosenSettled_turn (hr : r.ChosenSettled) (h : Turn s r r') : r'.ChosenSettled := by
  intro name e m hfind hgiven hchosen
  rw [Agenda.uriOf_congr h.replacements]
  rcases h.find?_cases name with hsame | ⟨old, _, _, hold, _, hfind'⟩ | ⟨task, _, d, before, htaken,
    rfl, ⟨_, hfind'⟩ | ⟨pick, _, hfind'⟩⟩
  · exact hr name e m (hsame.symm.trans hfind) hgiven hchosen
  · rw [hfind', Option.some.injEq] at hfind
    subst hfind
    simp [hold] at hgiven
  · rw [hfind', Option.some.injEq] at hfind
    subst hfind
    rcases htaken.before_eq with ⟨_, rfl⟩ | hwas
    · cases hchosen
    · obtain ⟨history, pick, rfl, hshape⟩ := hr _ before m hwas htaken.notGiven hchosen
      exact ⟨history ++ [d], pick, rfl, hshape⟩
  · rw [hfind', Option.some.injEq] at hfind
    subst hfind
    obtain rfl := Option.some.inj hchosen
    exact ⟨_, pick, rfl, rfl⟩

/-- What holds of the pick of a module that was not given holds of the pick before its task. -/
theorem Taken.pick_before {P : Pick → Prop} {task : Task} {rest : List Task} {d : Demand}
    {before : Entry} (h : Taken r task rest d before)
    (hr : ∀ e p, r.agenda.find? task.requirement.name = some e → e.given = false →
      e.pick = some p → P p) : ∀ p, before.pick = some p → P p := by
  intro p hp
  rcases h.before_eq with ⟨_, rfl⟩ | hwas
  · cases hp
  · exact hr before p hwas h.notGiven hp

/-- Nothing but the local version is picked for a local module. -/
def PicksLocal (r : Run) (name : String) : Prop :=
  ∀ e p, r.agenda.find? name = some e → e.given = false → e.pick = some p → p = .ofLocal

theorem Picked.eq_ofLocal {cache after : Cache} {asked queries : List Query} {uri : String}
    {before : Option Pick} {history : History} {pick : Pick} (hlocal : Location.isLocal uri = true)
    (hbefore : ∀ p, before = some p → p = .ofLocal)
    (h : Picked s cache asked uri before history pick after queries) : pick = .ofLocal := by
  cases h with
  | stays hwas _ => exact hbefore pick hwas
  | here _ _ => rfl
  | cached _ hremote _ _ => simp [hlocal] at hremote
  | asked _ hremote _ _ _ _ => simp [hlocal] at hremote

theorem PicksLocal.turn (hlocal : Location.isLocal (r.agenda.uriOf name) = true)
    (hr : r.PicksLocal name) (h : Turn s r r') : r'.PicksLocal name := by
  intro e p hfind hgiven hpick
  rcases h.find?_cases name with hsame | ⟨old, _, hold, hg, _, hfind'⟩ | ⟨task, _, d, before, htaken,
    rfl, hcases⟩
  · exact hr e p (hsame.symm.trans hfind) hgiven hpick
  · rw [hfind', Option.some.injEq] at hfind
    subst hfind
    simp [hg] at hgiven
  · have hbefore := htaken.pick_before hr
    rcases hcases with ⟨_, hfind'⟩ | ⟨pick, hpicked, hfind'⟩
    · rw [hfind', Option.some.injEq] at hfind
      subst hfind
      exact hbefore p hpick
    · rw [hfind', Option.some.injEq] at hfind
      subst hfind
      obtain rfl := Option.some.inj hpick
      exact hpicked.eq_ofLocal hlocal hbefore

theorem untouched_start {before after : List PinnedModule} {m : PinnedModule}
    (hlast : m.name ∉ after.map PinnedModule.name) :
    Untouched
      { agenda := .start tasks replacements (before ++ m :: after) base, cache, workers } m := by
  refine ⟨.ofGiven m, ?_, rfl, rfl, rfl⟩
  have hafter : ((after.map fun g => (g.name, Entry.ofGiven g)).reverse.lookup m.name) = none := by
    rw [List.lookup_eq_none_iff]
    intro entry hentry
    obtain ⟨g, hg, rfl⟩ := List.mem_map.mp (List.mem_reverse.mp hentry)
    have hne : m.name ≠ g.name := fun heq => hlast (List.mem_map.mpr ⟨g, hg, heq.symm⟩)
    simpa using hne
  simp [Agenda.start, Agenda.find?, Ledger.get?_ofList, List.lookup_append, hafter]

end Reachable

section Settled

variable {goal : Goal} {given : List PinnedModule} {cache : Cache} {name : String}
variable {m : PinnedModule}

theorem untouched_reachable (hstart : Run.start goal given 1 cache base = .ok start)
    (h : Reachable s start t r) {before after : List PinnedModule}
    (hinjected : goal.injected given = before ++ m :: after)
    (hlast : m.name ∉ after.map PinnedModule.name) : r.Untouched m := by
  obtain ⟨_, rfl⟩ := start_ok hstart
  refine invariant_of_turn (P := fun r => r.Untouched m) (isSound_start _ _ _ _) ?_
    (fun _ _ _ _ _ hr hturn => hr.turn hturn) h
  rw [hinjected]
  exact untouched_start hlast

/-- What is known of all modules that were not given: where they are fetched from, and on which
picks they are settled. -/
structure Settles (goal : Goal) (given : List PinnedModule) (base : Path) (r : Run) : Prop where
  replacements : r.agenda.replacements =
    (Agenda.start goal.tasks goal.replacements [] base).replacements
  givenAmong : r.GivenAmong ((goal.injected given).map PinnedModule.name)
  settled : r.ChosenSettled
  picksLocal : ∀ name, Location.isLocal (r.agenda.uriOf name) = true → r.PicksLocal name

theorem settles_start {cache : Cache} {workers : Nat} :
    Settles goal given base
      { agenda := .start goal.tasks goal.replacements (goal.injected given) base, cache
        workers } where
  replacements := rfl
  givenAmong := givenAmong_start _ _ _ _ _ _
  settled := by
    intro name e m hfind hgiven _
    obtain ⟨_, _, _, rfl⟩ := Agenda.find?_start name _ _ _ _ e hfind
    cases hgiven
  picksLocal := by
    intro name _ e p hfind hgiven _
    obtain ⟨_, _, _, rfl⟩ := Agenda.find?_start name _ _ _ _ e hfind
    cases hgiven

theorem Settles.turn (hr : r.Settles goal given base) (h : Turn s r r') :
    r'.Settles goal given base where
  replacements := h.replacements.trans hr.replacements
  givenAmong := givenAmong_turn hr.givenAmong h
  settled := chosenSettled_turn hr.settled h
  picksLocal := by
    intro name hlocal
    rw [Agenda.uriOf_congr h.replacements] at hlocal
    exact (hr.picksLocal name hlocal).turn hlocal h

theorem settles_reachable {workers : Int}
    (hstart : Run.start goal given workers cache base = .ok start) (h : Reachable s start t r) :
    r.Settles goal given base := by
  obtain ⟨_, rfl⟩ := start_ok hstart
  exact invariant_of_turn (isSound_start _ _ _ _) settles_start
    (fun _ _ _ _ _ hr hturn => hr.turn hturn) h

theorem Settles.settledEntry_of_chosen (h : r.Settles goal given base)
    (hname : name ∉ (goal.injected given).map PinnedModule.name)
    (hchosen : (r.agenda.find? name).bind Entry.chosen = some m) :
    ∃ history pick, r.agenda.find? name = some (settledEntry history pick m) ∧
      m = pick.pinned name (r.agenda.uriOf name) := by
  obtain ⟨e, hfind, hchosen⟩ := Option.bind_eq_some_iff.mp hchosen
  have hgiven : e.given = false := by
    cases hgiven : e.given with
    | false => rfl
    | true => exact absurd (h.givenAmong name e hfind hgiven) hname
  obtain ⟨history, pick, rfl, hshape⟩ := h.settled name e m hfind hgiven hchosen
  exact ⟨history, pick, hfind, hshape⟩

theorem Settles.uriOf_eq (h : r.Settles goal given base) {uri : String}
    (hreplaced : (Ledger.ofList goal.replacements).get? name = some uri) :
    r.agenda.uriOf name = Location.fetchUri uri base := by
  rw [Agenda.uriOf_congr h.replacements, Agenda.uriOf_start_replaced, hreplaced]
  rfl

theorem Settles.isFileUri_uriOf (h : r.Settles goal given base) {uri : String}
    (hreplaced : (Ledger.ofList goal.replacements).get? name = some uri)
    (hlocal : Location.isLocal uri = true) : Location.isFileUri (r.agenda.uriOf name) = true := by
  rw [h.uriOf_eq hreplaced]
  exact Location.isFileUri_fetchUri hlocal base

theorem Settles.eq_ofLocal (h : r.Settles goal given base)
    (hname : name ∉ (goal.injected given).map PinnedModule.name)
    (hlocal : Location.isLocal (r.agenda.uriOf name) = true)
    (hchosen : (r.agenda.find? name).bind Entry.chosen = some m) :
    m = Pick.ofLocal.pinned name (r.agenda.uriOf name) := by
  obtain ⟨history, pick, hfind, hshape⟩ := h.settledEntry_of_chosen hname hchosen
  rwa [h.picksLocal name hlocal _ pick hfind rfl rfl] at hshape

/-- The next step deals with a task for the module. -/
def UpNext (r : Run) (name : String) : Prop :=
  r.isActive = true ∧ r.agenda.tasks.head?.map (fun task => task.requirement.name) = some name

instance (r : Run) (name : String) : Decidable (r.UpNext name) :=
  inferInstanceAs (Decidable (_ ∧ _))

theorem UpNext.exists_task (h : r.UpNext name) :
    ∃ task rest, r.agenda.tasks = task :: rest ∧ task.requirement.name = name := by
  obtain ⟨task, hhead, hname⟩ := Option.map_eq_some_iff.mp h.2
  obtain ⟨rest, htasks⟩ := List.head?_eq_some_iff.mp hhead
  exact ⟨task, rest, htasks, hname⟩

theorem isSound_of_isActive (hstart : Run.start goal given 1 cache base = .ok start)
    (h : Reachable s start t r) (hactive : r.isActive = true) : r.agenda.IsSound := by
  exact isSound_reachable (isSound_of_start hstart) h (exists_task_of_isActive hactive).1

/-- A given module stays as it was given, and its tasks are dealt with unaided. -/
theorem given_stays (hstart : Run.start goal given 1 cache base = .ok start)
    (h : Reachable s start t r) {before after : List PinnedModule}
    (hinjected : goal.injected given = before ++ m :: after)
    (hlast : m.name ∉ after.map PinnedModule.name) :
    (r.agenda.find? m.name).bind Entry.chosen = some m ∧ r.agenda.history m.name = [] ∧
      (r.UpNext m.name → Unaided t r) := by
  obtain ⟨e, hfind, hgiven, hchosen, hhistory⟩ := untouched_reachable hstart h hinjected hlast
  refine ⟨by rw [hfind, Option.bind_some, hchosen], ?_, ?_⟩
  · rw [r.agenda.history_of_find? m.name hfind, hhistory]
  · intro hnext
    obtain ⟨task, rest, htasks, hown⟩ := hnext.exists_task
    refine unaided_of_local (isSound_of_isActive hstart h hnext.1) hnext.1 htasks ?_
    intro d before htaken
    rw [← hown] at hfind
    simp [htaken.not_given hfind] at hgiven

/-- A module that is replaced by a local folder has the local version, and its tasks are dealt with
unaided. -/
theorem local_stays (hstart : Run.start goal given 1 cache base = .ok start)
    (h : Reachable s start t r) {uri : String}
    (hname : name ∉ (goal.injected given).map PinnedModule.name)
    (hreplaced : (Ledger.ofList goal.replacements).get? name = some uri)
    (hlocal : Location.isLocal uri = true) :
    (∀ m, (r.agenda.find? name).bind Entry.chosen = some m →
      m.version = "local" ∧ m.mutable = true ∧ Location.isFileUri m.uri = true) ∧
      (r.UpNext name → Unaided t r) := by
  have hsettles := settles_reachable hstart h
  have hfile := hsettles.isFileUri_uriOf hreplaced hlocal
  have hlocal := Location.isLocal_of_isFileUri hfile
  refine ⟨?_, ?_⟩
  · intro m hchosen
    obtain rfl := hsettles.eq_ofLocal hname hlocal hchosen
    exact ⟨rfl, rfl, hfile⟩
  · intro hnext
    obtain ⟨task, rest, htasks, rfl⟩ := hnext.exists_task
    exact unaided_of_local (isSound_of_isActive hstart h hnext.1) hnext.1 htasks fun _ _ _ => hlocal

theorem Moored.reachable {later : Run} (hstart : Run.start goal given 1 cache base = .ok start)
    (h : Reachable s start t r) (hr : r.Moored name m) (hlater : Reachable t r u later) :
    later.Moored name m := by
  induction hlater with
  | initial => exact hr
  | next hmid hactive ih =>
    exact ih.turn (step_turn (isSound_of_isActive hstart (h.trans hmid) hactive) hactive)

/-- A mutable module that was not given stays in all later states, which deal with its tasks
alone. -/
theorem mutable_stays {later : Run} (hstart : Run.start goal given 1 cache base = .ok start)
    (h : Reachable s start t r) (hname : name ∉ (goal.injected given).map PinnedModule.name)
    (hchosen : (r.agenda.find? name).bind Entry.chosen = some m) (hmutable : m.mutable = true)
    (hlater : Reachable t r u later) :
    (later.agenda.find? name).bind Entry.chosen = some m ∧
      (later.UpNext name → Alone u later ∧ ((step u later).failure = none ∨
        ∃ previousChannel previousParent channel parent history, (step u later).failure =
          some (.channelConflict name previousChannel previousParent channel parent history))) := by
  obtain ⟨history, pick, hfind, hshape⟩ :=
    (settles_reachable hstart h).settledEntry_of_chosen hname hchosen
  have hmoored : r.Moored name m := ⟨history, pick, hfind, hshape, by rwa [hshape] at hmutable⟩
  have hmoored := hmoored.reachable hstart h hlater
  refine ⟨?_, ?_⟩
  · obtain ⟨_, _, hfind, _⟩ := hmoored
    rw [hfind]
    rfl
  · intro hnext
    obtain ⟨task, rest, htasks, rfl⟩ := hnext.exists_task
    exact hmoored.alone (isSound_of_isActive hstart (h.trans hlater) hnext.1) hnext.1 htasks

/-- In every state of a run, whether it fails or not:
a given module is chosen as it was given, has no demands on record, and its tasks are dealt with
unaided; so are those of a module that is replaced by a local folder, which has the local version;
and a module with a mutable pick keeps it in all later states, which deal with its tasks alone and
can fail only because another channel is asked for. A task whose version is a broken range counts as
dealt with: it is lost without a failure. -/
theorem settled_stay (hstart : Run.start goal given 1 cache base = .ok start)
    (h : Reachable s start t r) :
    (∀ before m after, goal.injected given = before ++ m :: after →
        m.name ∉ after.map PinnedModule.name →
      (r.agenda.find? m.name).bind Entry.chosen = some m ∧ r.agenda.history m.name = [] ∧
        (r.UpNext m.name → Unaided t r)) ∧
    (∀ name uri, name ∉ (goal.injected given).map PinnedModule.name →
        (Ledger.ofList goal.replacements).get? name = some uri → Location.isLocal uri = true →
      (∀ m, (r.agenda.find? name).bind Entry.chosen = some m →
        m.version = "local" ∧ m.mutable = true ∧ Location.isFileUri m.uri = true) ∧
        (r.UpNext name → Unaided t r)) ∧
    (∀ name m, name ∉ (goal.injected given).map PinnedModule.name →
        (r.agenda.find? name).bind Entry.chosen = some m → m.mutable = true →
      ∀ u later, Reachable t r u later →
        (later.agenda.find? name).bind Entry.chosen = some m ∧
          (later.UpNext name → Alone u later ∧ ((step u later).failure = none ∨
            ∃ previousChannel previousParent channel parent history, (step u later).failure =
              some (.channelConflict name previousChannel previousParent channel parent
                history)))) := by
  refine ⟨fun before m after hinjected hlast => ?_, fun name uri hname hreplaced hlocal => ?_,
    fun name m hname hchosen hmutable u later hlater => ?_⟩
  · exact given_stays hstart h hinjected hlast
  · exact local_stays hstart h hname hreplaced hlocal
  · exact mutable_stays hstart h hname hchosen hmutable hlater

/-- A project that is given `g`, has `l` in a local folder, and asks for a branch of `b` first. -/
def berthGoal : Goal :=
  .project
    { name := "svc"
      modules := [{ name := "g" }, { name := "l" }, { name := "b", version := "main" },
        { name := "b", version := "^1.0.0" }]
      replacements := [("l", "/src/l")] }

def berthGiven : PinnedModule :=
  { name := "g", uri := "file:///src/g", version := "dev" }

def berthSurroundings : Surroundings :=
  .inMemory
    { tags := [("https://b", ["1.0.0"])]
      branches := [{ url := "https://b", channel := "main", name := "main" }] }
    none
    { items := [
        { uri := "file:///src/g", manifest := { name := "g" } },
        { uri := "file:///src/l", manifest := { name := "l" } },
        { uri := "https://b", manifest := { name := "b" } }] }
    0

def berthStart : Run where
  agenda := .start berthGoal.tasks [("l", "/src/l")] [berthGiven]
  cache := { root := "/cache" }

theorem berth_starts : Run.start berthGoal [berthGiven] 1 { root := "/cache" } = .ok berthStart :=
  rfl

/-- The first step deals with `g` unaided, and the fourth with the range for `b` alone. -/
theorem settled_stay_berth :
    Unaided berthSurroundings berthStart ∧
      ∃ t r, Reachable berthSurroundings berthStart t r ∧
        (r.agenda.find? "g").bind Entry.chosen = some berthGiven ∧ r.agenda.history "g" = [] ∧
        (∃ m, (r.agenda.find? "l").bind Entry.chosen = some m ∧ m.version = "local") ∧
        Alone t r := by
  let r := step berthSurroundings (step berthSurroundings (step berthSurroundings berthStart))
  have hreach : Reachable berthSurroundings berthStart berthSurroundings r := by
    refine .next (.next (.next .initial ?_) ?_) ?_ <;> decide +kernel
  obtain ⟨hgiven, hlocal, hmutable⟩ := settled_stay berth_starts hreach
  obtain ⟨hchosen, hhistory, _⟩ := hgiven [] berthGiven [] rfl (by decide)
  obtain ⟨_, _, hunaided⟩ := (settled_stay berth_starts .initial).1 [] berthGiven [] rfl (by decide)
  have hl : (r.agenda.find? "l").bind Entry.chosen =
      some { name := "l", uri := "file:///src/l", version := "local", mutable := true } := by
    decide +kernel
  have hb : (r.agenda.find? "b").bind Entry.chosen =
      some { name := "b", uri := "https://b", version := "main", mutable := true } := by
    decide +kernel
  obtain ⟨hversion, _⟩ := hlocal "l" "/src/l" (by decide) (by decide +kernel) (by decide +kernel)
  obtain ⟨_, halone⟩ := hmutable "b" _ (by decide) hb rfl _ r .initial
  refine ⟨hunaided (by decide +kernel), _, r, hreach, hchosen, hhistory, ⟨_, hl, ?_⟩, ?_⟩
  · exact (hversion _ hl).1
  · exact (halone (by decide +kernel)).1

end Settled

end Run

end ModulePins
